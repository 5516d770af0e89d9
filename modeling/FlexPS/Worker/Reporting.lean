import FlexPS.Worker.Sessions

/-!
# Every thread is reported

No thread gets lost between the cluster manager and the workers, and none is reported twice.  The
steps of a worker come to an end, and then the cluster manager has been told about all of its threads;
and when the submission of tasks returns, nothing is left.

## Main definitions

* `Accounted` — a thread that runs is in one place, and a free one has no unit.
* `threads_in_one_place` — the statement for three schedulers.
* `Process.work`, `Reports` — the steps of a worker come to an end, with everything reported.
* `workers_report` — the statement for three schedulers.
* `Process.Done`, `submit_returns_done` — what is left when the submission returns.
-/

namespace FlexPS.Worker

open Lib Scheduler

variable {σ : Type} {S : TaskScheduler σ} {info : WorkerInfo} {ids : LocalIds info}
  {accepts : List SchedEvent → σ → List Task → Prop} {I : List SchedEvent → σ → Prop}
  {out : List SchedEvent} {sys sys' : System σ} {o : List ClusterEvent} {pid : ℕ} {p p' : Process}
  {i : Move}

/-! ## Where a thread is -/

/-- The threads of a process, by their instances: those on the way to the worker, those on its units,
and those on the way to the cluster manager. -/
def Process.threads (ids : LocalIds info) (pid : ℕ) (p : Process) : List (ℕ × ℕ) :=
  p.inbox.flatMap (WorkerMessage.bookings pid) ++ p.used.map (globally ids pid) ++
    p.outbox.filterMap reported

/-- **A thread that runs is in one place**, on its process; and the unit of a thread that does not
run is not joinable. -/
structure Accounted (ids : LocalIds info) (out : List SchedEvent) (sys : System σ) : Prop where
  once : ∀ pid id tid, ((sys.processes pid).threads ids pid).count (id, tid) =
    if info.processId tid = pid ∧ id ∈ holders out tid then 1 else 0
  free : ∀ tid ∈ info.globalTids, holders out tid = [] →
    (sys.processes (info.processId tid)).runner.units (ids.globalToLocalId tid) = false

theorem Consistent.accounted (hS : Exclusive info S accepts I) (h : Consistent S I ids out sys) :
    Accounted ids out sys where
  once pid id tid := by
    have hcount : ((sys.processes pid).threads ids pid).count (id, tid) =
        if info.processId tid = pid then (holders out tid).count id else 0 :=
      (h.agrees pid).booked.count id tid
    rw [hcount, ite_and]
    refine if_congr Iff.rfl ?_ rfl
    split
    · next hid =>
        rw [Ledger.eq_singleton_of_mem (h.one hS tid) hid, List.count_singleton_self]
    · next hid => exact List.count_eq_zero.mpr hid
  free tid htid hnone := by
    rw [Bool.eq_false_iff]
    intro hunit
    obtain ⟨id, hused⟩ := ((h.agrees (info.processId tid)).runs.joinable _).mp hunit
    have hheld := ((h.agrees (info.processId tid)).booked.mem_holders
      (List.mem_append_left _ (List.mem_append_right _ (List.mem_map_of_mem hused)))).2
    rw [Process.globally, ids.inverse tid htid, hnone] at hheld
    exact absurd hheld List.not_mem_nil

/-- **No thread is lost or reported twice**, whatever the threshold of the trigger is. -/
theorem threads_in_one_place {info : WorkerInfo} (ids : LocalIds info) (countThreshold : ℕ) :
    InAllRuns ids countThreshold fun _ out sys => Accounted ids (scheduled out) sys :=
  inAllRuns_of_consistent ids countThreshold fun hS h => h.accounted hS

/-! ## The steps of a worker come to an end -/

/-- The process whose worker or threads make the step. -/
def Move.worker : Move → Option ℕ
  | submit _ => none
  | enter pid => some pid
  | receive pid => some pid
  | complete pid _ => some pid
  | report pid _ => some pid
  | remove pid => some pid
  | manage _ _ => none

/-- How many steps may be left for a process, until it is sent the next message. -/
def Process.work (pid : ℕ) (p : Process) : ℕ :=
  4 * (p.inbox.flatMap (WorkerMessage.bookings pid)).length + 2 * p.inbox.length +
    3 * p.running.length + 2 * p.threadFinished.length + if p.phase = .waiting then 0 else 1

theorem work_enter (hstep : p.enter = some p') : p'.work pid < p.work pid := by
  unfold Process.enter at hstep
  split at hstep
  · next hphase =>
      obtain rfl := Option.some.inj hstep
      have hne : p.phase ≠ .waiting := fun heq => Phase.noConfusion (hphase.symm.trans heq)
      simp only [Process.work, if_true, if_neg hne]
      omega
  · cases hstep

theorem work_receive (hstep : p.receive ids pid = some p') : p'.work pid < p.work pid := by
  unfold Process.receive at hstep
  split at hstep
  · next hphase =>
      split at hstep
      · cases hstep
      · next instance_ inbox hinbox =>
          obtain ⟨⟨r, started⟩, hrun, rfl⟩ := Option.map_eq_some_iff.mp hstep
          have hstarted : started.length ≤
              ((WorkerMessage.task instance_).bookings pid).length := by
            rw [WorkerMessage.bookings, List.length_map]
            rcases InstanceRunner.runInstance_cases hrun with ⟨-, -, rfl⟩ | ⟨units, -, -, rfl, -⟩
            · exact Nat.zero_le _
            · rw [List.length_map, List.length_map]
          simp only [Process.work, hinbox, List.flatMap_cons, List.length_append, List.length_cons]
          omega
      · next inbox hinbox =>
          obtain rfl := Option.some.inj hstep
          simp only [Process.work, hinbox, hphase, List.flatMap_cons, List.length_append,
            List.length_cons, if_true]
          split
          · omega
          · omega
  · cases hstep

theorem work_complete {n : ℕ} (hstep : p.complete n = some p') : p'.work pid < p.work pid := by
  obtain ⟨th, hth, rfl⟩ := Option.map_eq_some_iff.mp hstep
  obtain ⟨hn, -⟩ := List.getElem?_eq_some_iff.mp hth
  have hlength := List.length_eraseIdx_add_one hn
  simp only [Process.work, List.length_append, List.length_singleton]
  omega

theorem work_report {n : ℕ} (hstep : p.report ids pid n = some p') : p'.work pid < p.work pid := by
  unfold Process.report at hstep
  split at hstep
  · next hphase =>
      obtain ⟨th, hth, hstep⟩ := Option.bind_eq_some_iff.mp hstep
      obtain ⟨r, -, hstep⟩ := Option.bind_eq_some_iff.mp hstep
      obtain rfl := Option.some.inj hstep
      obtain ⟨hn, -⟩ := List.getElem?_eq_some_iff.mp hth
      have hlength := List.length_eraseIdx_add_one hn
      simp only [Process.work, hphase, if_true]
      split
      · omega
      · omega
  · cases hstep

theorem work_remove (hstep : p.remove = some p') : p'.work pid < p.work pid := by
  unfold Process.remove at hstep
  split at hstep
  · next id hphase =>
      have hne : p.phase ≠ .waiting := fun heq => Phase.noConfusion (hphase.symm.trans heq)
      simp only at hstep
      split at hstep
      · obtain ⟨r, -, rfl⟩ := Option.map_eq_some_iff.mp hstep
        simp only [Process.work, if_true, if_neg hne]
        omega
      · obtain rfl := Option.some.inj hstep
        simp only [Process.work, if_true, if_neg hne]
        omega
  · cases hstep

/-- **Every step of a worker leaves it less to do**, and changes no other process. -/
theorem work_step (hworker : i.worker = some pid)
    (hstep : System.step S ids sys i = some (sys', o)) :
    (sys'.processes pid).work pid < (sys.processes pid).work pid ∧
      ∀ pid', pid' ≠ pid → sys'.processes pid' = sys.processes pid' := by
  have hprocess : ∀ {p : Option Process}, sys.atProcess pid p = some (sys', o) →
      (∀ p', p = some p' → p'.work pid < (sys.processes pid).work pid) →
      (sys'.processes pid).work pid < (sys.processes pid).work pid ∧
        ∀ pid', pid' ≠ pid → sys'.processes pid' = sys.processes pid' := by
    intro p hat hwork
    obtain ⟨p', hp', heq⟩ := Option.map_eq_some_iff.mp hat
    obtain ⟨rfl, rfl⟩ := Prod.mk.inj heq
    dsimp only
    rw [Function.update_self]
    exact ⟨hwork p' hp', fun pid' hne => Function.update_of_ne hne _ _⟩
  cases i with
  | submit tasks => cases hworker
  | enter pid' =>
      obtain rfl := Option.some.inj hworker
      simp only [System.step] at hstep
      split at hstep
      · cases hstep
      · exact hprocess hstep fun p' hp' => work_enter hp'
  | receive pid' =>
      obtain rfl := Option.some.inj hworker
      exact hprocess hstep fun p' hp' => work_receive hp'
  | complete pid' n =>
      obtain rfl := Option.some.inj hworker
      exact hprocess hstep fun p' hp' => work_complete hp'
  | report pid' n =>
      obtain rfl := Option.some.inj hworker
      exact hprocess hstep fun p' hp' => work_report hp'
  | remove pid' =>
      obtain rfl := Option.some.inj hworker
      exact hprocess hstep fun p' hp' => work_remove hp'
  | manage pid' d => cases hworker

/-- The unit of a thread that has finished can be joined. -/
theorem Process.Agrees.report_some (h : p.Agrees ids pid out) (hphase : p.phase = .waiting)
    (hfinished : p.threadFinished ≠ []) : ∃ p', p.report ids pid 0 = some p' := by
  obtain ⟨th, rest, hfinished⟩ := List.exists_cons_of_ne_nil hfinished
  have hused : th ∈ p.used := List.mem_append_right _ (hfinished ▸ List.mem_cons_self ..)
  have hunit : p.runner.units th.2 = true := (h.runs.joinable th.2).mpr ⟨th.1, hused⟩
  obtain ⟨r, hr⟩ : ∃ r, p.runner.finishThread th.1 th.2 = some r := by
    unfold InstanceRunner.finishThread
    simp only [hunit, if_true]
    exact ⟨_, rfl⟩
  rw [Process.report, if_pos hphase, hfinished]
  simp only [List.getElem?_cons_zero, Option.bind_eq_bind, Option.bind_some, hr]
  exact ⟨_, rfl⟩

/-- **What a worker does comes to an end**: every step of it leaves it less to do, and when it has
nothing to do, all of its threads that run have been reported to the cluster manager. -/
structure Reports (S : TaskScheduler σ) (ids : LocalIds info) (out : List SchedEvent)
    (sys : System σ) : Prop where
  decreases : ∀ i pid sys' o, i.worker = some pid → System.step S ids sys i = some (sys', o) →
    (sys'.processes pid).work pid < (sys.processes pid).work pid ∧
      ∀ pid', pid' ≠ pid → sys'.processes pid' = sys.processes pid'
  reported : ∀ pid, (∀ i, i.worker = some pid → System.step S ids sys i = none) →
    ∀ id tid, info.processId tid = pid → id ∈ holders out tid →
      ∃ time, .threadFinished id tid time ∈ (sys.processes pid).outbox

/-- A worker with nothing to do waits, with nothing in its inbox and on its units. -/
theorem Consistent.waits (hS : Exclusive info S accepts I) (h : Consistent S I ids out sys)
    (hstuck : ∀ i, i.worker = some pid → System.step S ids sys i = none) {id tid : ℕ}
    (hid : id ∈ holders out tid) :
    (sys.processes pid).inbox = [] ∧ (sys.processes pid).used = [] := by
  have hagrees := h.agrees pid
  have hnone : ∀ {i} {q : Option Process}, i.worker = some pid →
      System.step S ids sys i = sys.atProcess pid q → ∀ p', q ≠ some p' := by
    rintro i q hworker hstep p' rfl
    cases hstep.symm.trans (hstuck i hworker)
  have hphase : (sys.processes pid).phase = .waiting := by
    cases hphase : (sys.processes pid).phase with
    | outside =>
        by_cases hpid : pid = 0
        · subst hpid
          exact absurd ⟨tid, hid⟩ (hS.idle h.scheduler (h.session.finished (.inl hphase)) id)
        · have henter : (sys.processes pid).enter = some { sys.processes pid with phase := .waiting } :=
            if_pos hphase
          exact absurd henter (hnone (i := .enter pid) rfl (if_neg hpid) _)
    | waiting => rfl
    | removing instanceId =>
        obtain ⟨p', hp'⟩ := Process.remove_some hphase
        exact absurd hp' (hnone (i := .remove pid) rfl rfl p')
  refine ⟨?_, List.append_eq_nil_iff.mpr ⟨?_, ?_⟩⟩
  · by_contra hinbox
    obtain ⟨p', hp'⟩ := hagrees.receive_some (h.one hS) hphase hinbox
    exact hnone (i := .receive pid) rfl rfl p' hp'
  · by_contra hrunning
    obtain ⟨th, rest, hrunning⟩ := List.exists_cons_of_ne_nil hrunning
    obtain ⟨p', hp'⟩ : ∃ p', (sys.processes pid).complete 0 = some p' := by
      rw [Process.complete, hrunning]
      exact ⟨_, rfl⟩
    exact hnone (i := .complete pid 0) rfl rfl p' hp'
  · by_contra hfinished
    obtain ⟨p', hp'⟩ := hagrees.report_some hphase hfinished
    exact hnone (i := .report pid 0) rfl rfl p' hp'

theorem Consistent.reports (hS : Exclusive info S accepts I) (h : Consistent S I ids out sys) :
    Reports S ids out sys where
  decreases _ _ _ _ hworker hstep := work_step hworker hstep
  reported pid hstuck id tid hpid hid := by
    obtain ⟨hinbox, hused⟩ := h.waits hS hstuck hid
    have hmem : (id, tid) ∈ (sys.processes pid).threads ids pid := by
      have honce := (h.accounted hS).once pid id tid
      rw [if_pos ⟨hpid, hid⟩] at honce
      exact List.count_pos_iff.mp (honce ▸ Nat.zero_lt_one)
    rw [Process.threads, hinbox, hused] at hmem
    obtain ⟨m, hm, hreported⟩ := List.mem_filterMap.mp hmem
    cases m with
    | threadFinished instanceId tid' time =>
        obtain ⟨rfl, rfl⟩ := Prod.mk.inj (Option.some.inj hreported)
        exact ⟨time, hm⟩
    | _ => cases hreported

/-- **The workers report every thread**, whatever the threshold of the trigger is. -/
theorem workers_report {info : WorkerInfo} (ids : LocalIds info) (countThreshold : ℕ) :
    InAllRuns ids countThreshold fun S out sys => Reports S ids (scheduled out) sys :=
  inAllRuns_of_consistent ids countThreshold fun hS h => h.reports hS

/-! ## When the submission returns -/

/-- Nothing of the process is left: no unit is joinable, and no instance is kept that the worker is not
about to remove. -/
structure Process.Done (pid : ℕ) (p : Process) : Prop where
  bookings : p.inbox.flatMap (WorkerMessage.bookings pid) = []
  used : p.used = []
  outbox : p.outbox = []
  units : ∀ tid, p.runner.units tid = false
  instances : ∀ id, id ∈ p.runner.instances → p.phase = .removing id

theorem Consistent.done (hS : Exclusive info S accepts I) (h : Consistent S I ids out sys)
    (houtside : (sys.processes 0).phase = .outside) (pid : ℕ) :
    (sys.processes pid).Done pid := by
  have hquiet : Quiescent out := hS.idle h.scheduler (h.session.finished (.inl houtside))
  have hnone : (sys.processes pid).threads ids pid = [] := by
    refine List.eq_nil_iff_forall_not_mem.mpr fun b hb => ?_
    exact hquiet b.1 ⟨b.2, ((h.agrees pid).booked.mem_holders hb).2⟩
  obtain ⟨hbefore, hreports⟩ := List.append_eq_nil_iff.mp hnone
  obtain ⟨hbookings, hused⟩ := List.append_eq_nil_iff.mp hbefore
  have hused := List.map_eq_nil_iff.mp hused
  refine ⟨hbookings, hused, ?_, fun tid => ?_, fun id hid => ?_⟩
  · refine List.eq_nil_iff_forall_not_mem.mpr fun m hm => ?_
    rcases (h.agrees pid).sends m hm with ⟨id, tid, time, rfl⟩ | ⟨rfl, tasks, rfl⟩
    · have hmem : (id, tid) ∈ (sys.processes pid).outbox.filterMap reported :=
        List.mem_filterMap.mpr ⟨_, hm, rfl⟩
      rw [hreports] at hmem
      exact absurd hmem List.not_mem_nil
    · have hpending := h.session.outside houtside
      have hpos : 0 < (sys.processes 0).outbox.countP isInit :=
        List.countP_pos_iff.mpr ⟨_, hm, rfl⟩
      rw [Process.pending] at hpending
      omega
  · rw [Bool.eq_false_iff]
    intro hunit
    obtain ⟨id, hmem⟩ := ((h.agrees pid).runs.joinable tid).mp hunit
    rw [hused] at hmem
    exact absurd hmem List.not_mem_nil
  · rcases (h.agrees pid).runs.kept id (.inl hid) with ⟨tid, hmem⟩ | hphase
    · rw [hused] at hmem
      exact absurd hmem List.not_mem_nil
    · exact hphase

/-- **When `Submit` returns** on the process that sends the tasks, all tasks have finished, and nothing
is left on any process. -/
theorem submit_returns_done {info : WorkerInfo} (ids : LocalIds info) (countThreshold : ℕ) :
    InAllRuns ids countThreshold fun S _ sys => (sys.processes 0).phase = .outside →
      S.isFinished sys.manager.taskScheduler = true ∧ ∀ pid, (sys.processes pid).Done pid :=
  inAllRuns_of_consistent ids countThreshold fun hS h houtside =>
    ⟨h.session.finished (.inl houtside), h.done hS houtside⟩

end FlexPS.Worker
