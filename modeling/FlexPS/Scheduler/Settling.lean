import FlexPS.Scheduler.Admission
import FlexPS.Scheduler.AngryReservation
import FlexPS.Scheduler.AutoParallelismTaskScheduler
import FlexPS.Scheduler.ClusterManager
import FlexPS.Scheduler.Conservation
import Mathlib.Algebra.Order.BigOperators.Group.List
import Mathlib.Algebra.Order.Group.Nat

/-!
# Schedulers settle

A scheduler that has extracted nothing extracts nothing when it is asked again, unless a task has
become angry meanwhile.

## Main definitions

* `SequentialTaskScheduler.settles`, `AutoParallelismTaskScheduler.settles`,
  `GreedyTaskScheduler.settles`, `PriorityTaskScheduler.settles` — the schedulers settle.
* `PriorityTaskScheduler.NothingFits` — when the priority scheduler extracts nothing.
* `PriorityTaskScheduler.Calm` — no task becomes angry that could be placed then.
-/

namespace FlexPS.Scheduler

open Lib

variable {info : WorkerInfo} {out o : List SchedEvent} {d : Draw}

/-- What has been issued has threads. -/
theorem Placement.Inv.threads_ne_nil {p : Placement} (h : p.Inv info out) {instance_ : Instance}
    (hmem : .issued instance_ ∈ out) : instance_.threads ≠ [] := by
  obtain ⟨before, after, rfl⟩ := List.append_of_mem hmem
  exact (h.safe before _ after rfl instance_ rfl).1

/-! ## The queues -/

namespace SequentialTaskScheduler

variable {s s' : SequentialTaskScheduler}

theorem placement_of_reaches {accepts : List SchedEvent → SequentialTaskScheduler → List Task → Prop}
    (h : Reaches (scheduler info) accepts (.start info) out s) : s.placement.Inv info out :=
  h.invariant (I := fun out (s : SequentialTaskScheduler) => s.placement.Inv info out)
    (Placement.inv_ofCluster info) (fun hs _ hstep => placement_init hs hstep)
    (fun hs hstep => placement_extract hs hstep)
    (fun hs hid hstep => placement_finish hs hid hstep)

/-- Nothing is extracted while an instance runs, or when the queue is empty. -/
theorem extractsNothing (h : s.tasksQueue = [] ∨ ¬ s.placement.taskIdPidTids.isEmpty) :
    ExtractsNothing (scheduler info) s := by
  intro d s' o hstep instance_
  have hnil : extractInstances info d s = some (s, []) := by
    unfold extractInstances
    split
    · rfl
    · next hqueue => exact if_neg (h.resolve_left (hqueue ▸ List.cons_ne_nil _ _))
  obtain ⟨-, rfl⟩ := Prod.mk.inj (Option.some.inj (hstep.symm.trans hnil))
  exact List.not_mem_nil

/-- **The sequential scheduler settles.** -/
theorem settles (info : WorkerInfo) : Settles (scheduler info)
    (fun out s => s.placement.Inv info out) (fun _ => True) where
  events h hstep id tid hmem := by
    rcases extract_cases h.sound hstep with ⟨-, rfl, -⟩ |
      ⟨_, _, _, -, -, -, ⟨instance_, rfl, -⟩ | ⟨rfl, -⟩⟩
    · cases hmem
    · cases List.mem_singleton.mp hmem
    · cases List.mem_singleton.mp hmem
  threads h hmem := h.threads_ne_nil hmem
  again h _ hstep hnot hnothing := by
    rcases extract_cases h.sound hstep with ⟨rfl, -, hcases⟩ |
      ⟨_, _, _, -, -, -, ⟨instance_, rfl, -⟩ | ⟨rfl, -⟩⟩
    · exact extractsNothing hcases
    · exact absurd (List.mem_singleton_self _) (hnothing instance_)
    · exact absurd (List.mem_singleton_self _) hnot

end SequentialTaskScheduler

namespace AutoParallelismTaskScheduler

variable {s s' : AutoParallelismTaskScheduler}

theorem placement_of_reaches
    {accepts : List SchedEvent → AutoParallelismTaskScheduler → List Task → Prop}
    (h : Reaches (scheduler info) accepts (.start info) out s) : s.placement.Inv info out :=
  h.invariant (I := fun out (s : AutoParallelismTaskScheduler) => s.placement.Inv info out)
    (Placement.inv_ofCluster info) (fun hs _ hstep => placement_init hs hstep)
    (fun hs hstep => placement_extract hs hstep)
    (fun hs hid hstep => placement_finish hs hid hstep)

/-- Nothing is extracted while an instance runs, or when the queue is empty. -/
theorem extractsNothing (h : s.tasksQueue = [] ∨ ¬ s.placement.taskIdPidTids.isEmpty) :
    ExtractsNothing (scheduler info) s := by
  intro d s' o hstep instance_
  rcases extract_cases hstep with ⟨-, rfl, -⟩ | ⟨task, rest, hqueue, hempty, -⟩
  · exact List.not_mem_nil
  · rcases h with hnil | hrunning
    · cases hnil.symm.trans hqueue
    · exact absurd hempty hrunning

/-- An instance of the front is issued or refused, or nothing is asked of the placement. -/
theorem extract_outputs (h : s.placement.Inv info out)
    (hstep : extractInstances info d s = some (s', o)) :
    (o = [] ∧ ExtractsNothing (scheduler info) s') ∨ (∃ instance_, o = [.issued instance_]) ∨
      o = [.refused] := by
  rcases extract_cases hstep with ⟨rfl, rfl, hcases⟩ |
    ⟨task, rest, -, -, ⟨_, _, _, -, hissue⟩ | ⟨-, p', hplace, rfl⟩⟩
  · exact .inl ⟨rfl, extractsNothing hcases⟩
  · obtain ⟨policy, workers, threads, placement, -, -, rfl, -⟩ := issue_cases h hissue
    exact .inr (.inl ⟨_, rfl⟩)
  · rcases h.sound.taskToInstance hplace with ⟨instance_, rfl, -⟩ | ⟨rfl, -⟩
    · exact .inr (.inl ⟨instance_, rfl⟩)
    · exact .inr (.inr rfl)

/-- **The auto-parallelism scheduler settles.** -/
theorem settles (info : WorkerInfo) : Settles (scheduler info)
    (fun out s => s.placement.Inv info out) (fun _ => True) where
  events h hstep id tid hmem := by
    rcases extract_outputs h hstep with ⟨rfl, -⟩ | ⟨instance_, rfl⟩ | rfl
    · cases hmem
    · cases List.mem_singleton.mp hmem
    · cases List.mem_singleton.mp hmem
  threads h hmem := h.threads_ne_nil hmem
  again h _ hstep hnot hnothing := by
    rcases extract_outputs h hstep with ⟨rfl, hextracts⟩ | ⟨instance_, rfl⟩ | rfl
    · exact hextracts
    · exact absurd (List.mem_singleton_self _) (hnothing instance_)
    · exact absurd (List.mem_singleton_self _) hnot

end AutoParallelismTaskScheduler

/-! ## The greedy scheduler -/

namespace GreedyTaskScheduler

variable {s s' : GreedyTaskScheduler} {i : ℕ}

theorem placement_of_reaches {accepts : List SchedEvent → GreedyTaskScheduler → List Task → Prop}
    (h : Reaches (scheduler info) accepts (.start info) out s) : s.placement.Inv info out :=
  h.invariant (I := fun out (s : GreedyTaskScheduler) => s.placement.Inv info out)
    (Placement.inv_ofCluster info) (fun hs _ hstep => placement_init hs hstep)
    (fun hs hstep => placement_extract hs hstep)
    (fun hs hid hstep => placement_finish hs hid hstep)

/-- A round issues an instance, or nothing is seen of it. -/
theorem consider_outputs (hstep : consider info d s i = some (s', o)) :
    ∀ e ∈ o, ∃ instance_, e = .issued instance_ := by
  obtain ⟨task, -, hstep⟩ := Option.bind_eq_some_iff.mp hstep
  obtain ⟨status, -, hstep⟩ := Option.bind_eq_some_iff.mp hstep
  split at hstep
  · obtain ⟨⟨p', placed⟩, -, hstep⟩ := Option.bind_eq_some_iff.mp hstep
    simp only at hstep
    cases placed with
    | some instance_ =>
        obtain ⟨-, rfl⟩ := Prod.mk.inj (Option.some.inj hstep)
        exact fun e hmem => ⟨instance_, List.mem_singleton.mp hmem⟩
    | none =>
        obtain ⟨-, rfl⟩ := Prod.mk.inj (Option.some.inj hstep)
        exact fun _ hmem => absurd hmem List.not_mem_nil
  · obtain ⟨-, rfl⟩ := Prod.mk.inj (Option.some.inj hstep)
    exact fun _ hmem => absurd hmem List.not_mem_nil

/-- The loop changes nothing that matters when it issues nothing. -/
theorem run_consider_nothing {is : List ℕ} (h : s.placement.Sound info out)
    (hrun : run (consider info d) s is = some (s', o))
    (hnothing : ∀ instance_, .issued instance_ ∉ o) :
    s'.tasks = s.tasks ∧ s'.placement.Sound info out ∧
      ∀ j, s'.PlaceableAt info j ↔ s.PlaceableAt info j := by
  induction is generalizing s o with
  | nil =>
      obtain ⟨rfl, rfl⟩ := Prod.mk.inj (Option.some.inj hrun)
      exact ⟨rfl, h, fun _ => Iff.rfl⟩
  | cons i is ih =>
      rw [run_cons, Option.bind_eq_some_iff] at hrun
      obtain ⟨⟨s₁, o₁⟩, hstep, hrun⟩ := hrun
      obtain ⟨⟨s₂, o₂⟩, hlast, heq⟩ := Option.bind_eq_some_iff.mp hrun
      obtain ⟨rfl, rfl⟩ := Prod.mk.inj (Option.some.inj heq)
      obtain ⟨htasks, -, -, hsound, ⟨-, instance_, rfl⟩ | ⟨-, rfl, hsame⟩⟩ := consider_spec h hstep
      · exact absurd (List.mem_cons_self ..) (hnothing instance_)
      · rw [List.append_nil] at hsound
        obtain ⟨htasks', hsound', hsame'⟩ := ih hsound hlast hnothing
        exact ⟨htasks'.trans htasks, hsound', fun j => (hsame' j).trans (hsame j)⟩

/-- **The greedy scheduler settles.** -/
theorem settles (info : WorkerInfo) : Settles (scheduler info)
    (fun out s => s.placement.Inv info out) (fun _ => True) where
  events _ hstep id tid hmem := by
    obtain ⟨_, -, instance_, heq⟩ := run_outputs (Q := fun _ e => ∃ instance_, e = .issued instance_)
      (fun hstep => consider_outputs hstep) hstep _ hmem
    cases heq
  threads h hmem := h.threads_ne_nil hmem
  again h _ hstep _ hnothing d' s'' o' hstep' instance_ hmem := by
    obtain ⟨htasks, hsound, hsame⟩ := run_consider_nothing h.sound hstep hnothing
    obtain ⟨i, hi, hplaceable⟩ := (run_consider_issues_iff hsound hstep').mp ⟨instance_, hmem⟩
    rw [htasks] at hi
    obtain ⟨instance', hmem'⟩ :=
      (run_consider_issues_iff h.sound hstep).mpr ⟨i, hi, (hsame i).mp hplaceable⟩
    exact hnothing instance' hmem'

end GreedyTaskScheduler

/-! ## The priority scheduler -/

namespace Placement

variable {p p' p'' : Placement} {task : Task} {candidateProc candidateProc' : List ℕ}

/-- A task that fits on some processes fits on more of them. -/
theorem CanPlace.mono (h : p.CanPlace info task candidateProc)
    (hsub : candidateProc.Sublist candidateProc') : p.CanPlace info task candidateProc' := by
  have hsum : sumAvailable p.availableWorkers candidateProc ≤
      sumAvailable p.availableWorkers candidateProc' :=
    (hsub.map _).sum_le_sum fun _ _ => Nat.zero_le _
  unfold CanPlace Fits at h ⊢
  cases htype : task.type with
  | configurableWorkers workerNum workerNumType => rwa [htype] at h
  | basic =>
      rw [htype] at h
      simp only at h ⊢
      split
      · next hlocal =>
          rw [if_pos hlocal] at h
          obtain ⟨hpos, pid, hpid, hfree⟩ := h
          exact ⟨hpos, pid, hsub.subset hpid, hfree⟩
      · next hlocal =>
          rw [if_neg hlocal] at h
          exact ⟨h.1, h.2.trans hsum⟩
  | autoParallelism _ _ _ =>
      rw [htype] at h
      exact ⟨h.1, h.2.trans hsum⟩

/-- The same tasks can be placed. -/
structure Alike (info : WorkerInfo) (p p' : Placement) : Prop where
  history_eq : p'.history = p.history
  canPlace_iff : ∀ task candidateProc,
    p'.CanPlace info task candidateProc ↔ p.CanPlace info task candidateProc

theorem Alike.refl (info : WorkerInfo) (p : Placement) : Alike info p p :=
  ⟨rfl, fun _ _ => Iff.rfl⟩

theorem Alike.trans (h : Alike info p p') (h' : Alike info p' p'') : Alike info p p'' :=
  ⟨h'.history_eq.trans h.history_eq, fun task candidateProc =>
    (h'.canPlace_iff task candidateProc).trans (h.canPlace_iff task candidateProc)⟩

theorem NotPlaced.alike (hnot : NotPlaced info out p task candidateProc p') (h : p.Sound info out) :
    Alike info p p' :=
  ⟨hnot.history_eq, fun _ _ => hnot.canPlace_iff h⟩

end Placement

namespace PriorityTaskScheduler

variable {s s' : PriorityTaskScheduler} {l l' : AngryLoop} {m m' : TaskManager} {p p' : Placement}
  {tasks : List Task} {id : ℕ} {ids lock lock' candidateProc candidateProc' : List ℕ}

/-- The processes that the task asks for when it is angry. -/
def asksFor (info : WorkerInfo) (tasks : List Task) (p : Placement) (id : ℕ) : List ℕ :=
  match tasks[id]? with
  | some task => p.getCandidateProc info id (instanceBasicSetup task)
  | none => []

/-- The task cannot be placed on the processes. -/
def Rejects (info : WorkerInfo) (tasks : List Task) (p : Placement) (id : ℕ)
    (candidateProc : List ℕ) : Prop :=
  ∀ task, tasks[id]? = some task → ¬ p.CanPlace info (instanceBasicSetup task) candidateProc

/-- None of the tasks can be placed, each outside the processes that are locked or that those before
it ask for. -/
def Stuck (info : WorkerInfo) (tasks : List Task) (p : Placement) : List ℕ → List ℕ → Prop
  | _, [] => True
  | lock, id :: ids =>
      Rejects info tasks p id ((asksFor info tasks p id).filter (· ∉ lock)) ∧
      Stuck info tasks p (lock ++ asksFor info tasks p id) ids

/-- No ready task that becomes angry when it is rejected once more can be placed outside the
processes that the angry tasks ask for. -/
def Calm (info : WorkerInfo) (s : PriorityTaskScheduler) : Prop :=
  ∀ (id : ℕ) (priority : ℕ), s.taskManager.taskStatus[id]? = some TaskStatus.ready →
    (id, priority) ∈ s.taskManager.taskPriority → TaskManager.angryThreshold ≤ priority + 1 →
    Rejects info s.taskManager.tasks s.placement id
      ((asksFor info s.taskManager.tasks s.placement id).filter
        (· ∉ s.taskManager.angryList.flatMap (asksFor info s.taskManager.tasks s.placement)))

/-- Neither an angry task can be placed, nor a ready one outside the processes that they ask for. -/
def NothingFits (info : WorkerInfo) (s : PriorityTaskScheduler) : Prop :=
  Stuck info s.taskManager.tasks s.placement [] s.taskManager.angryList ∧
  ∀ id : ℕ, s.taskManager.taskStatus[id]? = some TaskStatus.ready →
    Rejects info s.taskManager.tasks s.placement id ((s.placement.getPreferredProc id).filter
      (· ∉ s.taskManager.angryList.flatMap (asksFor info s.taskManager.tasks s.placement)))

theorem Rejects.mono (h : Rejects info tasks p id candidateProc')
    (hsub : candidateProc.Sublist candidateProc') : Rejects info tasks p id candidateProc :=
  fun task htask hcan => h task htask (hcan.mono hsub)

/-- Fewer processes are left when more are locked. -/
theorem filter_lock_sublist (hlock : lock ⊆ lock') (procs : List ℕ) :
    (procs.filter (· ∉ lock')).Sublist (procs.filter (· ∉ lock)) := by
  refine List.monotone_filter_right procs fun pid hpid => decide_eq_true fun hmem => ?_
  exact of_decide_eq_true hpid (hlock hmem)

theorem asksFor_alike (h : Placement.Alike info p p') (id : ℕ) :
    asksFor info tasks p' id = asksFor info tasks p id := by
  simp only [asksFor, Placement.getCandidateProc, Placement.getPreferredProc, h.history_eq]

theorem rejects_alike (h : Placement.Alike info p p') :
    Rejects info tasks p' id candidateProc ↔ Rejects info tasks p id candidateProc :=
  forall₂_congr fun _ _ => not_congr (h.canPlace_iff _ _)

theorem stuck_alike (h : Placement.Alike info p p') :
    Stuck info tasks p' lock ids ↔ Stuck info tasks p lock ids := by
  induction ids generalizing lock with
  | nil => exact Iff.rfl
  | cons id ids ih =>
      rw [Stuck, Stuck, asksFor_alike h, rejects_alike h]
      exact and_congr_right fun _ => ih

theorem stuck_append {ids' : List ℕ} : Stuck info tasks p lock (ids ++ ids') ↔
    Stuck info tasks p lock ids ∧
      Stuck info tasks p (lock ++ ids.flatMap (asksFor info tasks p)) ids' := by
  induction ids generalizing lock with
  | nil =>
      rw [List.nil_append, List.flatMap_nil, List.append_nil]
      exact (and_iff_right trivial).symm
  | cons id ids ih =>
      rw [List.cons_append, Stuck, Stuck, ih, List.flatMap_cons, List.append_assoc, and_assoc]

/-- What cannot be placed outside the locked processes cannot be placed when more are locked. -/
theorem stuck_of_rejects (hlock : lock ⊆ lock')
    (h : ∀ id ∈ ids, Rejects info tasks p id ((asksFor info tasks p id).filter (· ∉ lock))) :
    Stuck info tasks p lock' ids := by
  induction ids generalizing lock' with
  | nil => trivial
  | cons id ids ih =>
      obtain ⟨hfirst, hrest⟩ := List.forall_mem_cons.mp h
      exact ⟨hfirst.mono (filter_lock_sublist hlock _),
        ih (List.subset_append_of_subset_left _ hlock) hrest⟩

/-- A round issues an instance, or rejects the task and locks its processes. -/
theorem considerAngry_spec (h : l.placement.Sound info out)
    (hids : ∀ (i : ℕ) (task : Task), m.tasks[i]? = some task → task.id = i)
    (hstep : considerAngry info d m l id = some (l', o)) :
    (¬ Rejects info m.tasks l.placement id
        ((asksFor info m.tasks l.placement id).filter (· ∉ l.processLock)) ∧
      ∃ instance_, o = [.issued instance_]) ∨
    (Rejects info m.tasks l.placement id
        ((asksFor info m.tasks l.placement id).filter (· ∉ l.processLock)) ∧
      o = [.rejected id (asksFor info m.tasks l.placement id)] ∧
      l'.processLock = l.processLock ++ asksFor info m.tasks l.placement id ∧
      l'.successTasks = l.successTasks ∧ Placement.Alike info l.placement l'.placement ∧
      l'.placement.Sound info out) := by
  obtain ⟨task, p', htask, hcases⟩ := considerAngry_cases h hids hstep
  have hasks : asksFor info m.tasks l.placement id =
      l.placement.getCandidateProc info id (instanceBasicSetup task) := by
    rw [asksFor, htask]
  rw [hasks]
  rcases hcases with ⟨instance_, hplaced, rfl, rfl⟩ | ⟨hnot, rfl, rfl⟩
  · exact .inl ⟨fun hrejects => hrejects task htask hplaced.canPlace, instance_, rfl⟩
  · refine .inr ⟨fun task' htask' => ?_, rfl, rfl, rfl, hnot.alike h, hnot.sound⟩
    obtain rfl := Option.some.inj (htask.symm.trans htask')
    exact hnot.not_canPlace

/-- **The loop over the angry tasks** issues nothing if and only if they are stuck, and then it
changes nothing that matters. -/
theorem run_considerAngry (h : l.placement.Sound info out)
    (hids : ∀ (i : ℕ) (task : Task), m.tasks[i]? = some task → task.id = i)
    (hrun : run (considerAngry info d m) l ids = some (l', o)) :
    (¬ Stuck info m.tasks l.placement l.processLock ids ∧ ∃ instance_, .issued instance_ ∈ o) ∨
    (Stuck info m.tasks l.placement l.processLock ids ∧ (∀ instance_, .issued instance_ ∉ o) ∧
      l'.processLock = l.processLock ++ ids.flatMap (asksFor info m.tasks l.placement) ∧
      l'.successTasks = l.successTasks ∧ Placement.Alike info l.placement l'.placement ∧
      l'.placement.Sound info out) := by
  induction ids generalizing l o with
  | nil =>
      obtain ⟨rfl, rfl⟩ := Prod.mk.inj (Option.some.inj hrun)
      exact .inr ⟨trivial, fun _ => List.not_mem_nil, (List.append_nil _).symm, rfl, .refl _ _, h⟩
  | cons id ids ih =>
      rw [run_cons, Option.bind_eq_some_iff] at hrun
      obtain ⟨⟨l₁, o₁⟩, hstep, hrun⟩ := hrun
      obtain ⟨⟨l₂, o₂⟩, hlast, heq⟩ := Option.bind_eq_some_iff.mp hrun
      obtain ⟨rfl, rfl⟩ := Prod.mk.inj (Option.some.inj heq)
      rcases considerAngry_spec h hids hstep with ⟨hplaced, instance_, rfl⟩ |
        ⟨hrejects, rfl, hlock, hsuccess, halike, hsound⟩
      · exact .inl ⟨fun hstuck => hplaced hstuck.1, instance_, List.mem_cons_self ..⟩
      · have hask : asksFor info m.tasks l₁.placement = asksFor info m.tasks l.placement :=
          funext fun id => asksFor_alike halike id
        have hlast := ih hsound hlast
        rw [stuck_alike halike, hlock, hask] at hlast
        rcases hlast with ⟨hnot, instance_, hmem⟩ |
          ⟨hstuck, hnothing, hlock', hsuccess', halike', hsound'⟩
        · exact .inl ⟨fun hstuck => hnot hstuck.2, instance_, List.mem_append_right _ hmem⟩
        · refine .inr ⟨⟨hrejects, hstuck⟩, fun instance_ hmem => ?_, ?_, hsuccess'.trans hsuccess,
            halike.trans halike', hsound'⟩
          · rcases List.mem_append.mp hmem with hmem | hmem
            · cases List.mem_singleton.mp hmem
            · exact hnothing instance_ hmem
          · rw [hlock', List.flatMap_cons, List.append_assoc]

/-- A round issues an instance, or rejects the task. -/
theorem considerReady_spec (h : s.placement.Sound info out)
    (hids : ∀ (i : ℕ) (task : Task), s.taskManager.tasks[i]? = some task → task.id = i)
    (hstep : considerReady info d lock s id = some (s', o)) :
    (¬ Rejects info s.taskManager.tasks s.placement id
        ((s.placement.getPreferredProc id).filter (· ∉ lock)) ∧
      ∃ instance_, o = [.issued instance_]) ∨
    (Rejects info s.taskManager.tasks s.placement id
        ((s.placement.getPreferredProc id).filter (· ∉ lock)) ∧
      o = [] ∧ s.taskManager.failSched id = some s'.taskManager ∧
      Placement.Alike info s.placement s'.placement ∧ s'.placement.Sound info out) := by
  obtain ⟨task, p', m', htask, rfl, ⟨instance_, hplaced, -, rfl⟩ | ⟨hnot, hm, rfl⟩⟩ :=
    considerReady_cases h hids hstep
  · exact .inl ⟨fun hrejects => hrejects task htask hplaced.canPlace, instance_, rfl⟩
  · refine .inr ⟨fun task' htask' => ?_, rfl, hm, hnot.alike h, hnot.sound⟩
    obtain rfl := Option.some.inj (htask.symm.trans htask')
    exact hnot.not_canPlace

/-- **The loop over the ready tasks** issues nothing if and only if none of them can be placed, and
then it rejects all of them. -/
theorem run_considerReady (h : s.placement.Sound info out)
    (hids : ∀ (i : ℕ) (task : Task), s.taskManager.tasks[i]? = some task → task.id = i)
    (hrun : run (considerReady info d lock) s ids = some (s', o)) :
    ((∃ id ∈ ids, ¬ Rejects info s.taskManager.tasks s.placement id
        ((s.placement.getPreferredProc id).filter (· ∉ lock))) ∧
      ∃ instance_, .issued instance_ ∈ o) ∨
    ((∀ id ∈ ids, Rejects info s.taskManager.tasks s.placement id
        ((s.placement.getPreferredProc id).filter (· ∉ lock))) ∧
      o = [] ∧ ids.foldlM TaskManager.failSched s.taskManager = some s'.taskManager ∧
      Placement.Alike info s.placement s'.placement ∧ s'.placement.Sound info out) := by
  induction ids generalizing s o with
  | nil =>
      obtain ⟨rfl, rfl⟩ := Prod.mk.inj (Option.some.inj hrun)
      exact .inr ⟨fun _ hid => absurd hid List.not_mem_nil, rfl, rfl, .refl _ _, h⟩
  | cons id ids ih =>
      rw [run_cons, Option.bind_eq_some_iff] at hrun
      obtain ⟨⟨s₁, o₁⟩, hstep, hrun⟩ := hrun
      obtain ⟨⟨s₂, o₂⟩, hlast, heq⟩ := Option.bind_eq_some_iff.mp hrun
      obtain ⟨rfl, rfl⟩ := Prod.mk.inj (Option.some.inj heq)
      rcases considerReady_spec h hids hstep with ⟨hplaced, instance_, rfl⟩ |
        ⟨hrejects, rfl, hm, halike, hsound⟩
      · exact .inl ⟨⟨id, List.mem_cons_self .., hplaced⟩, instance_, List.mem_cons_self ..⟩
      · have htasks := failSched_tasks hm
        have hpreferred : s₁.placement.getPreferredProc = s.placement.getPreferredProc := by
          funext id
          simp only [Placement.getPreferredProc, halike.history_eq]
        have hlast := ih hsound (htasks ▸ hids) hlast
        simp only [htasks, hpreferred, rejects_alike halike] at hlast
        rcases hlast with ⟨⟨id', hid', hplaced⟩, hissued⟩ | ⟨hall, rfl, hms, halike', hsound'⟩
        · exact .inl ⟨⟨id', List.mem_cons_of_mem _ hid', hplaced⟩, hissued⟩
        · refine .inr ⟨List.forall_mem_cons.mpr ⟨hrejects, hall⟩, rfl, ?_, halike.trans halike',
            hsound'⟩
          rw [List.foldlM_cons, hm]
          exact hms

/-- What a rejection does; the task becomes angry if it was one rejection short of it. -/
theorem failSched_spec (hkeys : (m.taskPriority.map Prod.fst).Nodup)
    (h : m.failSched id = some m') :
    m'.tasks = m.tasks ∧
    m'.taskPriority = TaskManager.updatePriority id (· + 1) m.taskPriority ∧
    (∀ i : ℕ, m'.taskStatus[i]? = some TaskStatus.ready →
      m.taskStatus[i]? = some TaskStatus.ready) ∧
    (m'.angryList = m.angryList ∨ m'.angryList = m.angryList ++ [id] ∧
      ∃ priority, (id, priority) ∈ m.taskPriority ∧
        TaskManager.angryThreshold ≤ priority + 1) := by
  unfold TaskManager.failSched at h
  split at h
  · simp only at h
    split at h
    · next q hq =>
        obtain ⟨⟨id', priority⟩, hmem, hid, rfl⟩ := TaskManager.find_updatePriority hkeys hq
        obtain rfl : id' = id := hid
        split at h
        · next hangry =>
            obtain rfl := Option.some.inj h
            refine ⟨rfl, rfl, fun i hready => ?_, .inr ⟨rfl, priority, hmem, hangry.1⟩⟩
            simp only [List.getElem?_set] at hready
            split at hready
            · split at hready
              · cases hready
              · cases hready
            · exact hready
        · obtain rfl := Option.some.inj h
          exact ⟨rfl, rfl, fun _ hready => hready, .inl rfl⟩
    · obtain rfl := Option.some.inj h
      exact ⟨rfl, rfl, fun _ hready => hready, .inl rfl⟩
  · cases h

/-- What is left of the tasks when some ready ones have been rejected; those that have become angry
were one rejection short of it. -/
theorem foldlM_failSched (hkeys : (m.taskPriority.map Prod.fst).Nodup) (hnodup : ids.Nodup)
    (h : ids.foldlM TaskManager.failSched m = some m') :
    m'.tasks = m.tasks ∧
    (∀ i : ℕ, m'.taskStatus[i]? = some TaskStatus.ready →
      m.taskStatus[i]? = some TaskStatus.ready) ∧
    ∃ angry, m'.angryList = m.angryList ++ angry ∧ ∀ id ∈ angry, id ∈ ids ∧
      ∃ priority, (id, priority) ∈ m.taskPriority ∧
        TaskManager.angryThreshold ≤ priority + 1 := by
  induction ids generalizing m with
  | nil =>
      obtain rfl := Option.some.inj h
      exact ⟨rfl, fun _ hready => hready, [], (List.append_nil _).symm,
        fun _ hid => absurd hid List.not_mem_nil⟩
  | cons id ids ih =>
      obtain ⟨hid, hnodup⟩ := List.nodup_cons.mp hnodup
      rw [List.foldlM_cons] at h
      obtain ⟨m₁, hfirst, h⟩ := Option.bind_eq_some_iff.mp h
      obtain ⟨htasks₁, hpriority, hready₁, hangry₁⟩ := failSched_spec hkeys hfirst
      have hkeys₁ : (m₁.taskPriority.map Prod.fst).Nodup := by
        rw [hpriority, TaskManager.map_fst_updatePriority]
        exact hkeys
      obtain ⟨htasks, hready, angry, hlist, hangry⟩ := ih hkeys₁ hnodup h
      -- the rejection of the first task leaves the priorities of the others
      have hothers : ∀ id' ∈ angry, id' ∈ id :: ids ∧
          ∃ priority, (id', priority) ∈ m.taskPriority ∧
            TaskManager.angryThreshold ≤ priority + 1 := by
        intro id' hid'
        obtain ⟨hmem, priority, hpriority', hle⟩ := hangry id' hid'
        refine ⟨List.mem_cons_of_mem _ hmem, priority, ?_, hle⟩
        rw [hpriority] at hpriority'
        obtain ⟨q, hq, heq⟩ := (TaskManager.mem_updatePriority hkeys).mp hpriority'
        split at heq
        · next hqid =>
            have hid'' : id' = q.1 := congrArg Prod.fst heq
            exact absurd (hid''.trans hqid ▸ hmem) hid
        · rwa [heq]
      refine ⟨htasks.trans htasks₁, fun i hi => hready₁ i (hready i hi), ?_⟩
      rcases hangry₁ with hsame | ⟨hnew, hfirst⟩
      · exact ⟨angry, hlist.trans (congrArg (· ++ angry) hsame), hothers⟩
      · refine ⟨id :: angry, ?_, List.forall_mem_cons.mpr ⟨⟨List.mem_cons_self .., hfirst⟩,
          hothers⟩⟩
        rw [hlist, hnew, List.append_assoc]
        rfl

theorem orderByPriority_perm (h : m.orderByPriority d = some (m', ids)) :
    m'.taskPriority.Perm m.taskPriority := by
  unfold TaskManager.orderByPriority at h
  simp only at h
  split at h
  · obtain ⟨rfl, -⟩ := Prod.mk.inj (Option.some.inj h)
    exact (List.perm_insertionSort _ _).trans (d.ties_perm _)
  · cases h

/-- **A call** issues an instance, or nothing fits, and then it rejects all ready tasks. -/
theorem extract_spec {tasks₀ : List Task} (h : Inv info tasks₀ out s)
    (hstep : extractInstances info d s = some (s', o)) :
    (¬ NothingFits info s ∧ ∃ instance_, .issued instance_ ∈ o) ∨
    (NothingFits info s ∧ (∀ instance_, .issued instance_ ∉ o) ∧
      s'.taskManager.tasks = s.taskManager.tasks ∧
      (∀ i : ℕ, s'.taskManager.taskStatus[i]? = some TaskStatus.ready →
        s.taskManager.taskStatus[i]? = some TaskStatus.ready) ∧
      (∃ angry, s'.taskManager.angryList = s.taskManager.angryList ++ angry ∧ ∀ id ∈ angry,
        s.taskManager.taskStatus[id]? = some TaskStatus.ready ∧
        ∃ priority, (id, priority) ∈ s.taskManager.taskPriority ∧
          TaskManager.angryThreshold ≤ priority + 1) ∧
      Placement.Alike info s.placement s'.placement) := by
  obtain ⟨l, angry, m, m', ordered, ready, hrun, hm, hordered, hready, rfl⟩ := extract_cases hstep
  rcases run_considerAngry h.placement.sound h.manager.ids hrun with ⟨hnot, instance_, hmem⟩ |
    ⟨hstuck, hnothing, hlock, hsuccess, halike, hsound⟩
  · exact .inl ⟨fun hfits => hnot hfits.1, instance_, List.mem_append_left _ hmem⟩
  rw [hsuccess] at hm
  obtain rfl := Option.some.inj hm
  obtain ⟨sorted, ids, heq, hmanager, hnodup, hmem, -⟩ := h.manager.orderByPriority d
  obtain ⟨rfl, rfl⟩ := Prod.mk.inj (Option.some.inj (hordered.symm.trans heq))
  have hperm := orderByPriority_perm hordered
  have hlast := run_considerReady (s := ⟨{ s.taskManager with taskPriority := sorted }, l.placement⟩)
    hsound hmanager.ids hready
  have hpreferred : l.placement.getPreferredProc = s.placement.getPreferredProc := by
    funext id
    simp only [Placement.getPreferredProc, halike.history_eq]
  simp only [hpreferred, rejects_alike halike, hlock, List.nil_append] at hlast
  rcases hlast with ⟨⟨id, hid, hplaced⟩, instance_, hissued⟩ | ⟨hrejects, rfl, hms, halike', -⟩
  · exact .inl ⟨fun hfits => hplaced (hfits.2 id ((hmem id).mp hid)), instance_,
      List.mem_append_right _ hissued⟩
  obtain ⟨htasks, hstatus, new, hlist, hnew⟩ := foldlM_failSched hmanager.nodup_keys hnodup hms
  rw [List.append_nil]
  refine .inr ⟨⟨hstuck, fun id hid => hrejects id ((hmem id).mpr hid)⟩, hnothing, htasks, hstatus,
    ⟨new, hlist, fun id hid => ?_⟩, halike.trans halike'⟩
  obtain ⟨hid, priority, hpriority, hle⟩ := hnew id hid
  exact ⟨(hmem id).mp hid, priority, hperm.mem_iff.mp hpriority, hle⟩

/-- No thread finishes in a round over the angry tasks. -/
theorem considerAngry_outputs (hstep : considerAngry info d m l id = some (l', o)) :
    ∀ e ∈ o, ∀ id' tid, e ≠ .finished id' tid := by
  obtain ⟨task, -, hstep⟩ := Option.bind_eq_some_iff.mp hstep
  obtain ⟨⟨p', placed⟩, -, hstep⟩ := Option.bind_eq_some_iff.mp hstep
  simp only at hstep
  rintro e hmem id' tid rfl
  cases placed with
  | some instance_ =>
      obtain ⟨-, rfl⟩ := Prod.mk.inj (Option.some.inj hstep)
      cases List.mem_singleton.mp hmem
  | none =>
      obtain ⟨-, rfl⟩ := Prod.mk.inj (Option.some.inj hstep)
      cases List.mem_singleton.mp hmem

/-- No thread finishes in a round over the ready tasks. -/
theorem considerReady_outputs (hstep : considerReady info d lock s id = some (s', o)) :
    ∀ e ∈ o, ∀ id' tid, e ≠ .finished id' tid := by
  obtain ⟨task, -, hstep⟩ := Option.bind_eq_some_iff.mp hstep
  obtain ⟨⟨p', placed⟩, -, hstep⟩ := Option.bind_eq_some_iff.mp hstep
  simp only at hstep
  rintro e hmem id' tid rfl
  cases placed with
  | some instance_ =>
      obtain ⟨m', -, hstep⟩ := Option.bind_eq_some_iff.mp hstep
      obtain ⟨-, rfl⟩ := Prod.mk.inj (Option.some.inj hstep)
      cases List.mem_singleton.mp hmem
  | none =>
      obtain ⟨m', -, hstep⟩ := Option.bind_eq_some_iff.mp hstep
      obtain ⟨-, rfl⟩ := Prod.mk.inj (Option.some.inj hstep)
      cases hmem

theorem inv_of_reaches (h : Reaches (scheduler info) IndexedTasks (.start info) out s) :
    ∃ tasks₀, Inv info tasks₀ out s :=
  h.invariant (I := fun out s => ∃ tasks₀, Inv info tasks₀ out s) ⟨[], inv_start info⟩
    (fun {out s s' tasks} ⟨tasks₀, hs⟩ hids hstep => by
      obtain rfl := Option.some.inj hstep
      exact ⟨tasks₀ ++ tasks, hs.init (hs.length ▸ hids)⟩)
    (fun ⟨tasks₀, hs⟩ hstep => ⟨tasks₀, hs.extract hstep⟩)
    (fun ⟨tasks₀, hs⟩ hid hstep => ⟨tasks₀, hs.finish hid hstep⟩)

/-- No task is one rejection short of becoming angry. -/
theorem calm_of_lt (h : ∀ entry ∈ s.taskManager.taskPriority,
    entry.2 + 1 < TaskManager.angryThreshold) : Calm info s :=
  fun _ _ _ hmem hle => absurd (h _ hmem) (not_lt.mpr hle)

/-- **The priority scheduler settles** unless a task becomes angry that can be placed then. -/
theorem settles (info : WorkerInfo) : Settles (scheduler info)
    (fun out s => ∃ tasks₀, Inv info tasks₀ out s) (Calm info) where
  events := by
    rintro out o s s' d - hstep id tid hmem
    obtain ⟨l, angry, m, m', ordered, ready, hangry, -, -, hready, rfl⟩ := extract_cases hstep
    rcases List.mem_append.mp hmem with hmem | hmem
    · obtain ⟨_, -, hne⟩ := run_outputs (Q := fun _ e => ∀ id' tid, e ≠ .finished id' tid)
        (fun hstep => considerAngry_outputs hstep) hangry _ hmem
      exact hne id tid rfl
    · obtain ⟨_, -, hne⟩ := run_outputs (Q := fun _ e => ∀ id' tid, e ≠ .finished id' tid)
        (fun hstep => considerReady_outputs hstep) hready _ hmem
      exact hne id tid rfl
  threads := by
    rintro out s instance_ ⟨tasks₀, h⟩ hmem
    exact h.placement.threads_ne_nil hmem
  again := by
    rintro out o s s' d ⟨tasks₀, h⟩ hcalm hstep - hnothing d' s'' o' hstep' instance_ hmem
    rcases extract_spec h hstep with ⟨-, instance', hmem'⟩ |
      ⟨⟨hstuck, hrejects⟩, -, htasks, hstatus, ⟨new, hlist, hnew⟩, halike⟩
    · exact hnothing instance' hmem'
    have hnew' : ∀ id ∈ new, Rejects info s.taskManager.tasks s.placement id
        ((asksFor info s.taskManager.tasks s.placement id).filter
          (· ∉ s.taskManager.angryList.flatMap (asksFor info s.taskManager.tasks s.placement))) := by
      intro id hid
      obtain ⟨hready, priority, hpriority, hle⟩ := hnew id hid
      exact hcalm id priority hready hpriority hle
    have hsettled : NothingFits info s' := by
      have hasks : asksFor info s'.taskManager.tasks s'.placement =
          asksFor info s.taskManager.tasks s.placement := by
        rw [htasks]
        exact funext fun id => asksFor_alike halike id
      refine ⟨?_, fun id hready => ?_⟩
      · rw [htasks, stuck_alike halike, hlist, stuck_append]
        exact ⟨hstuck, stuck_of_rejects (List.Subset.refl _) hnew'⟩
      · have hpreferred : s'.placement.getPreferredProc id = s.placement.getPreferredProc id := by
          simp only [Placement.getPreferredProc, halike.history_eq]
        rw [hasks, htasks, rejects_alike halike, hpreferred, hlist, List.flatMap_append]
        exact (hrejects id (hstatus id hready)).mono
          (filter_lock_sublist (List.subset_append_left ..) _)
    rcases extract_spec (h.extract hstep) hstep' with ⟨hnot, -⟩ | ⟨-, hnothing', -⟩
    · exact hnot hsettled
    · exact hnothing' instance_ hmem

end PriorityTaskScheduler

end FlexPS.Scheduler
