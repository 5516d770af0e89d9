import FlexPS.Lib.Ledger
import FlexPS.Lib.Machine
import FlexPS.Scheduler.SelectThreads
import FlexPS.Scheduler.Tracking

/-!
# Task schedulers

A task scheduler is given tasks, issues instances when it is asked to, and is told when the threads
of an instance finish.  Whatever it keeps, it has to give account of the threads: a thread that is
not free belongs to one running instance.

## Main definitions

* `TaskScheduler` — the interface.
* `SchedEvent`, `schedStep` — what a scheduler does, step by step.
* `holders` — the running instances of a thread, from the history.
* `Reaches`, `Reaches.invariant` — what calls can lead to, and the invariant rule.
* `Accounts` — the available workers and the tracked threads are what the history says.
* `Accounts.issue`, `Accounts.finish` — what issuing an instance and finishing a thread do to it.
-/

namespace FlexPS.Scheduler

open Lib AvailableWorkers

/-- What is seen of a scheduler; `rejected` tells that an angry task locks its processes, and
`refused` that `extract_instances` throws. -/
inductive SchedEvent where
  | submitted (tasks : List Task)
  | issued (instance_ : Instance)
  | rejected (taskId : ℕ) (procIds : List ℕ)
  | refused
  | finished (instanceId tid : ℕ)

/-- The interface of schedulers.  `finishThread` is also given the time that the sub-epoch has
taken; `none` is a failed assertion or undefined behaviour. -/
structure TaskScheduler (σ : Type) where
  initTasks : σ → List Task → Option σ
  finishThread : σ → ℕ → ℕ → ℕ → Option σ
  extractInstances : Draw → σ → Option (σ × List SchedEvent)
  isFinished : σ → Bool

/-- The calls of a scheduler. -/
inductive SchedInput where
  | initTasks (tasks : List Task)
  | extractInstances (d : Draw)
  | finishThread (instanceId tid time : ℕ)

/-- One call. -/
def schedStep {σ : Type} (S : TaskScheduler σ) (s : σ) :
    SchedInput → Option (σ × List SchedEvent)
  | .initTasks tasks => (S.initTasks s tasks).map fun s' => (s', [.submitted tasks])
  | .extractInstances d => S.extractInstances d s
  | .finishThread instanceId tid time =>
      (S.finishThread s instanceId tid time).map fun s' => (s', [.finished instanceId tid])

/-! ## Who runs on a thread -/

/-- What an event does to the threads. -/
def SchedEvent.entry : SchedEvent → Option (Ledger.Entry ℕ ℕ)
  | issued instance_ => some (.grant instance_.id instance_.tids)
  | finished instanceId tid => some (.release instanceId tid)
  | _ => none

/-- The instances that have been issued for a thread and have not finished on it. -/
def holders (out : List SchedEvent) (tid : ℕ) : List ℕ :=
  Ledger.holders (out.filterMap SchedEvent.entry) tid

/-- The thread finishes that runs. -/
def SchedInput.Fair (out : List SchedEvent) : SchedInput → Prop
  | finishThread instanceId tid _ => instanceId ∈ holders out tid
  | _ => True

instance SchedInput.decidableFair (out : List SchedEvent) (i : SchedInput) :
    Decidable (i.Fair out) := by
  cases i <;> unfold SchedInput.Fair <;> infer_instance

/-- What calls can lead to: the threads that finish run, and the submitted tasks are accepted. -/
def Reaches {σ : Type} (S : TaskScheduler σ) (accepts : List SchedEvent → σ → List Task → Prop)
    (s₀ : σ) (out : List SchedEvent) (s : σ) : Prop :=
  ∃ inputs, Along (schedStep S) (fun before s i =>
      i.Fair before ∧ ∀ tasks, i = .initTasks tasks → accepts before s tasks) [] s₀ inputs ∧
    run (schedStep S) s₀ inputs = some (s, out)

/-- Any tasks may be submitted. -/
def AnyTasks {σ : Type} (_ : List SchedEvent) (_ : σ) (_ : List Task) : Prop := True

/-- No tasks are submitted. -/
def NoTasks {σ : Type} (_ : List SchedEvent) (_ : σ) (_ : List Task) : Prop := False

/-- **The invariant rule for schedulers.** -/
theorem Reaches.invariant {σ : Type} {S : TaskScheduler σ}
    {accepts : List SchedEvent → σ → List Task → Prop} {s₀ s : σ} {out : List SchedEvent}
    {I : List SchedEvent → σ → Prop} (h : Reaches S accepts s₀ out s) (hstart : I [] s₀)
    (hinit : ∀ {out s s' tasks}, I out s → accepts out s tasks → S.initTasks s tasks = some s' →
      I (out ++ [.submitted tasks]) s')
    (hextract : ∀ {out s s' o d}, I out s → S.extractInstances d s = some (s', o) → I (out ++ o) s')
    (hfinish : ∀ {out s s' id tid time}, I out s → id ∈ holders out tid →
      S.finishThread s id tid time = some s' → I (out ++ [.finished id tid]) s') :
    I out s := by
  obtain ⟨inputs, halong, hrun⟩ := h
  refine run_along (fun {out s i s' o} hI hi hstep => ?_) hstart halong hrun
  cases i with
  | initTasks tasks =>
      obtain ⟨s₁, hs₁, heq⟩ := Option.map_eq_some_iff.mp hstep
      obtain ⟨rfl, rfl⟩ := Prod.mk.inj heq
      exact hinit hI (hi.2 tasks rfl) hs₁
  | extractInstances d => exact hextract hI hstep
  | finishThread id tid time =>
      obtain ⟨s₁, hs₁, heq⟩ := Option.map_eq_some_iff.mp hstep
      obtain ⟨rfl, rfl⟩ := Prod.mk.inj heq
      exact hfinish hI hi.1 hs₁

/-- One more call. -/
theorem Reaches.snoc {σ : Type} {S : TaskScheduler σ}
    {accepts : List SchedEvent → σ → List Task → Prop} {s₀ s s' : σ} {out o : List SchedEvent}
    {i : SchedInput} (h : Reaches S accepts s₀ out s) (hfair : i.Fair out)
    (haccepts : ∀ tasks, i = .initTasks tasks → accepts out s tasks)
    (hstep : schedStep S s i = some (s', o)) : Reaches S accepts s₀ (out ++ o) s' := by
  obtain ⟨inputs, halong, hrun⟩ := h
  refine ⟨inputs ++ [i], halong.snoc fun s₁ out₁ hrun₁ => ?_, run_snoc hrun hstep⟩
  obtain ⟨rfl, rfl⟩ := Prod.mk.inj (Option.some.inj (hrun.symm.trans hrun₁))
  exact ⟨hfair, haccepts⟩

/-- An instance runs. -/
def Busy (out : List SchedEvent) (id : ℕ) : Prop := ∃ tid, id ∈ holders out tid

theorem holders_snoc_of_none {out : List SchedEvent} {e : SchedEvent} (he : e.entry = none)
    (tid : ℕ) : holders (out ++ [e]) tid = holders out tid := by
  rw [holders, List.filterMap_append, List.filterMap_cons, he, List.filterMap_nil,
    List.append_nil]
  rfl

@[simp] theorem holders_submitted (out : List SchedEvent) (tasks : List Task) (tid : ℕ) :
    holders (out ++ [.submitted tasks]) tid = holders out tid :=
  holders_snoc_of_none rfl tid

@[simp] theorem holders_rejected (out : List SchedEvent) (id : ℕ) (procIds : List ℕ) (tid : ℕ) :
    holders (out ++ [.rejected id procIds]) tid = holders out tid :=
  holders_snoc_of_none rfl tid

@[simp] theorem holders_refused (out : List SchedEvent) (tid : ℕ) :
    holders (out ++ [.refused]) tid = holders out tid :=
  holders_snoc_of_none rfl tid

theorem holders_issued (out : List SchedEvent) (instance_ : Instance) (tid : ℕ) :
    holders (out ++ [.issued instance_]) tid =
      if tid ∈ instance_.tids then instance_.id :: holders out tid else holders out tid := by
  rw [holders, List.filterMap_append]
  exact Ledger.holders_snoc _ _ _

theorem holders_finished (out : List SchedEvent) (id t tid : ℕ) :
    holders (out ++ [.finished id t]) tid =
      if t = tid then (holders out tid).erase id else holders out tid := by
  rw [holders, List.filterMap_append]
  exact Ledger.holders_snoc _ _ _

/-- An instance that has threads runs when it is issued. -/
theorem busy_issued {out : List SchedEvent} {instance_ : Instance} (hne : instance_.threads ≠ [])
    (id : ℕ) : Busy (out ++ [.issued instance_]) id ↔ id = instance_.id ∨ Busy out id := by
  constructor
  · rintro ⟨tid, htid⟩
    rw [holders_issued] at htid
    split at htid
    · rcases List.mem_cons.mp htid with hid | htid
      · exact .inl hid
      · exact .inr ⟨tid, htid⟩
    · exact .inr ⟨tid, htid⟩
  · rintro (rfl | ⟨tid, htid⟩)
    · obtain ⟨p, hp⟩ := List.exists_mem_of_ne_nil _ hne
      refine ⟨p.2, ?_⟩
      have hmem : p.2 ∈ instance_.tids := List.mem_map_of_mem hp
      rw [holders_issued, if_pos hmem]
      exact List.mem_cons_self ..
    · refine ⟨tid, ?_⟩
      rw [holders_issued]
      split
      · exact List.mem_cons_of_mem _ htid
      · exact htid

theorem busy_snoc_of_none {out : List SchedEvent} {e : SchedEvent} (he : e.entry = none) (id : ℕ) :
    Busy (out ++ [e]) id ↔ Busy out id := by
  simp only [Busy, holders_snoc_of_none he]

/-- A thread that finishes belongs to one instance. -/
theorem busy_finished_of_ne {out : List SchedEvent} {id id' tid : ℕ} (hne : id' ≠ id) :
    Busy (out ++ [.finished id tid]) id' ↔ Busy out id' := by
  refine exists_congr fun t => ?_
  rw [holders_finished]
  split
  · exact List.mem_erase_of_ne hne
  · exact Iff.rfl

/-! ## Giving account -/

/-- The available workers and the tracked threads are what the history says. -/
structure Accounts (info : WorkerInfo) (out : List SchedEvent) (a : AvailableWorkers)
    (m : Tracking) : Prop where
  agree : a.Agree
  tight : m.Tight
  free_proc : ∀ pid tid, tid ∈ a.tids pid → pid = info.processId tid
  held_proc : ∀ id pid tid, tid ∈ m.tids id pid → pid = info.processId tid
  cluster : ∀ tid id, id ∈ holders out tid → tid ∈ info.globalTids
  books : Ledger.Books (· ∈ info.globalTids) (fun tid => tid ∈ a.tids (info.processId tid))
    (fun id tid => tid ∈ m.tids id (info.processId tid)) (out.filterMap SchedEvent.entry)

variable {info : WorkerInfo} {out : List SchedEvent} {a a' : AvailableWorkers} {m m' : Tracking}

/-- All threads are free in the beginning. -/
theorem accounts_init (info : WorkerInfo) : Accounts info [] (ofCluster info) ∅ := by
  obtain ⟨hagree, hmem⟩ := ofCluster_spec info
  refine ⟨hagree, Tracking.tight_empty, fun pid tid htid => ((hmem tid pid).mp htid).2,
    fun _ _ _ => nofun, fun _ _ => nofun, Ledger.books_nil (fun tid => ?_) fun _ _ => nofun⟩
  rw [hmem]
  simp

/-- Other events do not matter. -/
theorem Accounts.snoc_of_none (h : Accounts info out a m) {e : SchedEvent} (he : e.entry = none) :
    Accounts info (out ++ [e]) a m := by
  refine ⟨h.agree, h.tight, h.free_proc, h.held_proc, fun tid id hid => ?_, ?_⟩
  · rw [holders_snoc_of_none he] at hid
    exact h.cluster tid id hid
  have hentries : (out ++ [e]).filterMap SchedEvent.entry = out.filterMap SchedEvent.entry := by
    rw [List.filterMap_append, List.filterMap_cons, he, List.filterMap_nil, List.append_nil]
  rw [hentries]
  exact h.books

theorem Accounts.mem_holders (h : Accounts info out a m) {tid : ℕ} (htid : tid ∈ info.globalTids)
    (id : ℕ) : id ∈ holders out tid ↔ tid ∈ m.tids id (info.processId tid) := by
  rw [h.books.held_iff]
  exact (and_iff_right htid).symm

/-- Only threads of the cluster are held. -/
theorem Accounts.held_mem (h : Accounts info out a m) {id pid tid : ℕ} (htid : tid ∈ m.tids id pid) :
    tid ∈ info.globalTids ∧ id ∈ holders out tid := by
  have hpid := h.held_proc id pid tid htid
  subst hpid
  exact (h.books.held_iff id tid).mp htid

/-- Only threads of the cluster are free. -/
theorem Accounts.free_mem (h : Accounts info out a m) {pid tid : ℕ} (htid : tid ∈ a.tids pid) :
    tid ∈ info.globalTids ∧ holders out tid = [] := by
  have hpid := h.free_proc pid tid htid
  subst hpid
  exact (h.books.free_iff tid).mp htid

/-- The free threads of a process are threads of it. -/
theorem Accounts.mem_localTids (h : Accounts info out a m) {pid tid : ℕ} (htid : tid ∈ a.tids pid) :
    tid ∈ info.localTids pid := by
  rw [WorkerInfo.localTids, List.mem_filter, decide_eq_true_iff]
  exact ⟨(h.free_mem htid).1, (h.free_proc pid tid htid).symm⟩

theorem Accounts.length_tids_le (h : Accounts info out a m) (pid : ℕ) :
    (a.tids pid).length ≤ info.numLocalWorkers pid :=
  (List.subperm_of_subset (h.agree.tids_nodup pid) fun _ htid => h.mem_localTids htid).length_le

/-- All threads are free when nothing runs. -/
theorem Accounts.length_tids_of_idle (h : Accounts info out a m)
    (hidle : ∀ tid, holders out tid = []) (pid : ℕ) :
    (a.tids pid).length = info.numLocalWorkers pid := by
  have hnodup : (info.localTids pid).Nodup := info.nodup.filter _
  refine ((List.perm_ext_iff_of_nodup (h.agree.tids_nodup pid) hnodup).mpr fun tid => ?_).length_eq
  refine ⟨h.mem_localTids, fun htid => ?_⟩
  obtain ⟨hmem, hpid⟩ := List.mem_filter.mp htid
  obtain rfl := of_decide_eq_true hpid
  exact (h.books.free_iff tid).mpr ⟨hmem, hidle tid⟩

/-- **An instance is issued** for threads that have been taken from the available ones. -/
theorem Accounts.issue (h : Accounts info out a m) {task : Task} {selected : List (ℕ × ℕ)}
    (ht : Takes a selected a') :
    Accounts info (out ++ [.issued ⟨task, selected⟩]) a' (m.track task.id selected) := by
  have hproc : ∀ p ∈ selected, p.1 = info.processId p.2 :=
    fun p hp => h.free_proc p.1 p.2 (ht.free p hp)
  have htids : ∀ tid, tid ∈ (⟨task, selected⟩ : Instance).tids ↔
      (info.processId tid, tid) ∈ selected := by
    intro tid
    rw [Instance.tids, List.mem_map]
    constructor
    · rintro ⟨p, hp, rfl⟩
      rw [← hproc p hp]
      exact hp
    · exact fun hp => ⟨_, hp, rfl⟩
  refine ⟨ht.agree h.agree, h.tight.track _ _, fun pid tid htid => ?_, fun id pid tid htid => ?_,
    fun tid id hid => ?_, ?_⟩
  · exact h.free_proc pid tid ((ht.mem_tids pid tid).mp htid).1
  · rcases (Tracking.mem_tids_track ..).mp htid with htid | ⟨-, hp⟩
    · exact h.held_proc id pid tid htid
    · exact hproc _ hp
  · rw [holders_issued] at hid
    split at hid
    · next htid => exact (h.free_mem (ht.free _ ((htids tid).mp htid))).1
    · exact h.cluster tid id hid
  · rw [List.filterMap_append]
    refine h.books.grant (fun tid htid => ?_) (fun tid => ?_) fun id tid => ?_
    · exact ht.free _ ((htids tid).mp htid)
    · rw [ht.mem_tids, htids]
    · rw [Tracking.mem_tids_track, htids]
      rfl

/-- **A thread finishes**, and is available again. -/
theorem Accounts.finish (h : Accounts info out a m) {id tid : ℕ} (hid : id ∈ holders out tid) :
    Accounts info (out ++ [.finished id tid]) (a.addWorker (info.processId tid) tid)
      (m.untrack id (info.processId tid) tid).1 := by
  have htid := h.cluster tid id hid
  refine ⟨h.agree.addWorker _ _, h.tight.untrack _ _ _, fun pid tid' htid' => ?_,
    fun id' pid tid' htid' => ?_, fun tid' id' hid' => ?_, ?_⟩
  · rcases mem_tids_addWorker.mp htid' with ⟨rfl, rfl⟩ | htid'
    · rfl
    · exact h.free_proc pid tid' htid'
  · exact h.held_proc id' pid tid' ((h.tight.mem_tids_untrack ..).mp htid').1
  · rw [holders_finished] at hid'
    split at hid'
    · exact h.cluster tid' id' (List.mem_of_mem_erase hid')
    · exact h.cluster tid' id' hid'
  · rw [List.filterMap_append]
    refine h.books.release htid hid (fun tid' => ?_) fun id' tid' => ?_
    · rw [mem_tids_addWorker]
      constructor
      · rintro (⟨rfl, -⟩ | htid')
        · exact .inl rfl
        · exact .inr htid'
      · rintro (rfl | htid')
        · exact .inl ⟨rfl, rfl⟩
        · exact .inr htid'
    · rw [h.tight.mem_tids_untrack]
      refine and_congr_right fun _ => not_congr ⟨fun ⟨h₁, _, h₂⟩ => ⟨h₁, h₂⟩, ?_⟩
      rintro ⟨rfl, rfl⟩
      exact ⟨rfl, rfl, rfl⟩

/-- Taking nothing. -/
theorem Accounts.keep (h : Accounts info out a m) (ht : Takes a [] a') :
    Accounts info out a' m where
  agree := ht.agree h.agree
  tight := h.tight
  free_proc pid tid htid := h.free_proc pid tid ((ht.mem_tids pid tid).mp htid).1
  held_proc := h.held_proc
  cluster := h.cluster
  books := h.books.congr (fun tid => by rw [ht.mem_tids]; simp) fun _ _ => Iff.rfl

/-- An instance that has no threads any more is removed from the map. -/
theorem Accounts.drop (h : Accounts info out a m) {id : ℕ} (hid : ¬ m.Running id) :
    Accounts info out a (m.drop id) where
  agree := h.agree
  tight := h.tight.drop hid
  free_proc := h.free_proc
  held_proc id' pid tid htid := h.held_proc id' pid tid (Tracking.tids_drop hid id' pid ▸ htid)
  cluster := h.cluster
  books := h.books.congr (fun _ => Iff.rfl) fun id' tid => by
    simp only [Tracking.tids_drop hid]

/-- The tracked instances are the ones that run. -/
theorem Accounts.running_iff (h : Accounts info out a m) (id : ℕ) :
    m.Running id ↔ Busy out id := by
  constructor
  · rintro ⟨pid, hne⟩
    obtain ⟨tid, htid⟩ := List.exists_mem_of_ne_nil _ hne
    exact ⟨tid, (h.held_mem htid).2⟩
  · rintro ⟨tid, hid⟩
    exact ⟨_, List.ne_nil_of_mem ((h.mem_holders (h.cluster tid id hid) id).mp hid)⟩

end FlexPS.Scheduler
