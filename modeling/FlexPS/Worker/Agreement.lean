import FlexPS.Worker.Booking

/-!
# The processes and the cluster manager

What a process does keeps its threads where the cluster manager takes them to be: the history of the
scheduler changes only when the cluster manager handles a message.

## Main definitions

* `Process.Agrees` — the process agrees with the history of the scheduler.
* `Process.Agrees.receive`, `Process.Agrees.report`, `Process.Agrees.remove` — what the worker does.
* `Process.Agrees.served` — what the cluster manager does.
* `Session` — what the process that submits tasks waits for.
-/

namespace FlexPS.Worker

open Lib Scheduler

namespace Process

variable {info : WorkerInfo} (ids : LocalIds info) (pid : ℕ)

/-- The threads that are on the units, by their local ids. -/
def used (p : Process) : List (ℕ × ℕ) := p.running ++ p.threadFinished

/-- A thread as the cluster manager knows it. -/
def globally (th : ℕ × ℕ) : ℕ × ℕ := (th.1, ids.localToGlobalId pid th.2)

/-- What a process sends: the threads that have finished and, from the first process, tasks. -/
def Sends (outbox : List ClusterMessage) : Prop :=
  ∀ m ∈ outbox, (∃ id tid time, m = .threadFinished id tid time) ∨ pid = 0 ∧ ∃ tasks, m = .init tasks

/-- The threads of the process are where the cluster manager takes them to be, and the worker keeps
what it has on its units. -/
structure Agrees (out : List SchedEvent) (p : Process) : Prop where
  booked : Booked info out pid p.inbox (p.used.map (globally ids pid)) (p.outbox.filterMap reported)
  runs : Runs p.runner p.phase p.used
  sends : Sends pid p.outbox

variable {ids pid} {out instances : List SchedEvent} {p p' : Process} {instance_ : Instance}
  {e : SchedEvent} {tasks : List Task} {n : ℕ}

theorem agrees_start (ids : LocalIds info) (pid : ℕ) : Agrees ids pid [] .start where
  booked := booked_nil info pid
  runs := runs_start .outside
  sends _ hm := absurd hm List.not_mem_nil

/-- No unit has a thread of the next instance. -/
theorem Agrees.ne_of_used (h : Agrees ids pid out p) {inbox : List WorkerMessage}
    (hinbox : p.inbox = .task instance_ :: inbox) {th : ℕ × ℕ} (hth : th ∈ p.used) :
    th.1 ≠ instance_.id := by
  have hbooked := h.booked
  rw [hinbox] at hbooked
  have hne : (globally ids pid th).1 ≠ instance_.id :=
    hbooked.ne_of_assigned (List.mem_map_of_mem hth)
  exact hne

/-- Local ids are different where the ids are. -/
theorem nodup_localIds (hplaced : WellPlaced info instance_) :
    ((instance_.localTids pid).map ids.globalToLocalId).Nodup := by
  refine List.Nodup.of_map (ids.localToGlobalId pid) ?_
  rw [InstanceRunner.map_localToGlobalId hplaced.2]
  exact Instance.nodup_localTids hplaced.1 pid

/-- **The units of the next instance are not joinable.** -/
theorem Agrees.free (h : Agrees ids pid out p) (hone : ∀ tid, (holders out tid).length ≤ 1)
    {inbox : List WorkerMessage} (hinbox : p.inbox = .task instance_ :: inbox) :
    ∀ tid ∈ (instance_.localTids pid).map ids.globalToLocalId, p.runner.units tid = false := by
  have hbooked := h.booked
  rw [hinbox] at hbooked
  have hplaced := hbooked.placed instance_ (List.mem_cons_self ..)
  intro localTid hlocal
  obtain ⟨tid, htid, rfl⟩ := List.mem_map.mp hlocal
  rw [Bool.eq_false_iff]
  intro hunit
  obtain ⟨id, hused⟩ := (h.runs.joinable _).mp hunit
  refine hbooked.free hone htid (List.mem_map_of_mem hused) ?_
  obtain ⟨hpid, hmem⟩ := hplaced.2 _ (Instance.mem_localTids.mp htid)
  rw [globally, show pid = info.processId tid from hpid]
  exact ids.inverse tid hmem

/-! ## The steps of a process -/

theorem Agrees.submit (h : Agrees ids 0 out p) (hstep : p.submit tasks = some p') :
    Agrees ids 0 out p' := by
  unfold Process.submit at hstep
  split at hstep
  · next hphase =>
      obtain rfl := Option.some.inj hstep
      refine ⟨?_, h.runs.ofPhase fun id heq => Phase.noConfusion (hphase.symm.trans heq), ?_⟩
      · rw [List.filterMap_append]
        exact (List.append_nil (p.outbox.filterMap reported)).symm ▸ h.booked
      · exact List.forall_mem_append.mpr ⟨h.sends, List.forall_mem_singleton.mpr (.inr ⟨rfl, _, rfl⟩)⟩
  · cases hstep

theorem Agrees.enter (h : Agrees ids pid out p) (hstep : p.enter = some p') :
    Agrees ids pid out p' := by
  unfold Process.enter at hstep
  split at hstep
  · next hphase =>
      obtain rfl := Option.some.inj hstep
      exact ⟨h.booked, h.runs.ofPhase fun id heq => Phase.noConfusion (hphase.symm.trans heq), h.sends⟩
  · cases hstep

/-- The threads that start are those that the message gives to the instance. -/
theorem map_started (hplaced : WellPlaced info instance_) {r r' : InstanceRunner}
    {started : List (ℕ × ℕ)} (hrun : r.runInstance ids pid instance_ = some (r', started)) :
    started.map (globally ids pid) = (WorkerMessage.task instance_).bookings pid := by
  rw [WorkerMessage.bookings]
  rcases InstanceRunner.runInstance_cases hrun with ⟨hnil, -, rfl⟩ | ⟨units, -, -, rfl, -⟩
  · rw [hnil]
    rfl
  · have hglobal : ((instance_.localTids pid).map ids.globalToLocalId).map
        (ids.localToGlobalId pid) = instance_.localTids pid :=
      InstanceRunner.map_localToGlobalId hplaced.2
    refine Eq.trans ?_ (congrArg (List.map (instance_.id, ·)) hglobal)
    simp only [List.map_map]
    rfl

/-- **The worker receives a message.** -/
theorem Agrees.receive (h : Agrees ids pid out p) (hone : ∀ tid, (holders out tid).length ≤ 1)
    (hstep : p.receive ids pid = some p') :
    Agrees ids pid out p' := by
  unfold Process.receive at hstep
  split at hstep
  · next hphase =>
      split at hstep
      · cases hstep
      · next instance_ inbox hinbox =>
          obtain ⟨⟨r, started⟩, hrun, rfl⟩ := Option.map_eq_some_iff.mp hstep
          have hbooked := h.booked
          rw [hinbox] at hbooked
          have hplaced := hbooked.placed instance_ (List.mem_cons_self ..)
          have hperm : (p.running ++ started ++ p.threadFinished).Perm (p.used ++ started) := by
            rw [used, List.append_assoc, List.append_assoc]
            exact List.perm_append_comm.append_left _
          have hruns := h.runs
          rw [hphase] at hruns
          refine ⟨?_, ?_, h.sends⟩
          · refine hbooked.receive.perm ?_
            rw [← map_started hplaced hrun, ← List.map_append]
            exact hperm.map _
          · rw [hphase]
            exact (hruns.run (fun tid hused => h.ne_of_used hinbox hused rfl)
              (nodup_localIds hplaced) (h.free hone hinbox) hrun).perm hperm
      · next inbox hinbox =>
          obtain rfl := Option.some.inj hstep
          have hbooked := h.booked
          rw [hinbox] at hbooked
          exact ⟨hbooked.receiveFinished,
            h.runs.ofPhase fun id heq => Phase.noConfusion (hphase.symm.trans heq), h.sends⟩
  · cases hstep

theorem Agrees.complete (h : Agrees ids pid out p) (hstep : p.complete n = some p') :
    Agrees ids pid out p' := by
  obtain ⟨th, hth, rfl⟩ := Option.map_eq_some_iff.mp hstep
  obtain ⟨hn, rfl⟩ := List.getElem?_eq_some_iff.mp hth
  have hperm : (p.running.eraseIdx n ++ (p.threadFinished ++ [p.running[n]])).Perm p.used := by
    rw [← List.append_assoc]
    refine (List.perm_append_singleton _ _).trans ?_
    exact (List.getElem_cons_eraseIdx_perm hn).append_right p.threadFinished
  exact ⟨h.booked.perm (hperm.map _), h.runs.perm hperm, h.sends⟩

/-- **The worker reports a thread.** -/
theorem Agrees.report (h : Agrees ids pid out p) (hstep : p.report ids pid n = some p') :
    Agrees ids pid out p' := by
  unfold Process.report at hstep
  split at hstep
  · next hphase =>
      obtain ⟨th, hth, hstep⟩ := Option.bind_eq_some_iff.mp hstep
      obtain ⟨r, hfinish, hstep⟩ := Option.bind_eq_some_iff.mp hstep
      obtain rfl := Option.some.inj hstep
      obtain ⟨hn, rfl⟩ := List.getElem?_eq_some_iff.mp hth
      have hperm : (p.threadFinished[n] :: (p.running ++ p.threadFinished.eraseIdx n)).Perm
          p.used := by
        refine List.perm_middle.symm.trans ?_
        exact (List.getElem_cons_eraseIdx_perm hn).append_left p.running
      have hruns := h.runs.perm hperm
      rw [hphase] at hruns
      refine ⟨?_, hruns.finish hfinish, ?_⟩
      · rw [List.filterMap_append]
        exact (h.booked.perm (hperm.map (globally ids pid))).report
      · exact List.forall_mem_append.mpr ⟨h.sends, List.forall_mem_singleton.mpr (.inl ⟨_, _, _, rfl⟩)⟩
  · cases hstep

/-- **The worker removes an instance** that is done. -/
theorem Agrees.remove (h : Agrees ids pid out p) (hstep : p.remove = some p') :
    Agrees ids pid out p' := by
  unfold Process.remove at hstep
  split at hstep
  · next id hphase =>
      have hruns := h.runs
      rw [hphase] at hruns
      simp only at hstep
      split at hstep
      · obtain ⟨r, hremove, rfl⟩ := Option.map_eq_some_iff.mp hstep
        exact ⟨h.booked, hruns.look.remove hremove, h.sends⟩
      · next hleft =>
          obtain rfl := Option.some.inj hstep
          refine ⟨h.booked, hruns.look.keep fun hnil => hleft ?_, h.sends⟩
          simp only [InstanceRunner.isInstanceDone, Dict.getD_set_self] at hnil ⊢
          rw [hnil]
          rfl
  · cases hstep

/-! ## Nothing fails -/

/-- **The assertions of `run_instance` hold**, and the worker can receive whatever has arrived. -/
theorem Agrees.receive_some (h : p.Agrees ids pid out)
    (hone : ∀ tid, (holders out tid).length ≤ 1) (hphase : p.phase = .waiting)
    (hinbox : p.inbox ≠ []) : ∃ p', p.receive ids pid = some p' := by
  obtain ⟨message, inbox, hinbox⟩ := List.exists_cons_of_ne_nil hinbox
  cases message with
  | task instance_ =>
      have hfresh : instance_.id ∉ p.runner.instances := by
        intro hmem
        rcases h.runs.kept _ (.inl hmem) with ⟨tid, hused⟩ | hremoving
        · exact h.ne_of_used hinbox hused rfl
        · exact Phase.noConfusion (hphase.symm.trans hremoving)
      have hplaced := h.booked.placed instance_ (hinbox ▸ List.mem_cons_self ..)
      obtain ⟨next, hnext⟩ := InstanceRunner.runInstance_some hfresh (nodup_localIds hplaced)
        fun th hth => h.free hone hinbox th.1 (by
          rw [← InstanceRunner.map_extractLocalInstance]
          exact List.mem_map_of_mem hth)
      rw [Process.receive, if_pos hphase, hinbox]
      exact ⟨_, Option.map_eq_some_iff.mpr ⟨next, hnext, rfl⟩⟩
  | finished =>
      rw [Process.receive, if_pos hphase, hinbox]
      exact ⟨_, rfl⟩

/-- **The assertion of `remove_instance` holds.** -/
theorem remove_some {id : ℕ} (hphase : p.phase = .removing id) : ∃ p', p.remove = some p' := by
  rw [Process.remove, hphase]
  simp only
  split
  · next hdone =>
      have hempty : ((p.runner.isInstanceDone id).1.instanceKeeper.getD id []).isEmpty = true := by
        simp only [InstanceRunner.isInstanceDone, Dict.getD_set_self] at hdone ⊢
        exact hdone
      rw [InstanceRunner.removeInstance, if_pos hempty]
      exact ⟨_, rfl⟩
  · exact ⟨_, rfl⟩

/-! ## The steps of the cluster manager -/

/-- The instances that are issued are sent to the worker. -/
theorem Agrees.announce (h : Agrees ids pid out p)
    (hfresh : Throughout (FreshIssue info) (out ++ instances))
    (hnot : ∀ id tid, .finished id tid ∉ instances) :
    Agrees ids pid (out ++ instances)
      (p.deliver ((instances.map ClusterEvent.scheduled).filterMap workerMessage)) := by
  refine ⟨?_, h.runs, h.sends⟩
  simp only [deliver]
  induction instances using List.reverseRecOn with
  | nil =>
      rw [List.append_nil]
      exact (List.append_nil p.inbox).symm ▸ h.booked
  | append_singleton instances e ih =>
      rw [← List.append_assoc] at hfresh ⊢
      obtain ⟨hfresh, hlast⟩ := throughout_snoc.mp hfresh
      have hbooked := (ih hfresh fun id tid hmem => hnot id tid (List.mem_append_left _ hmem)).announce
        hlast (by
          rintro id tid rfl
          exact hnot id tid (List.mem_append_right _ (List.mem_singleton_self _)))
      rw [List.append_assoc p.inbox] at hbooked
      rw [List.map_append, List.filterMap_append, filterMap_workerMessage_singleton]
      exact hbooked

/-- **The cluster manager has extracted instances.** -/
theorem Agrees.extracted (h : Agrees ids pid out p) {σ : Type} (S : TaskScheduler σ) (s : σ)
    (hfresh : Throughout (FreshIssue info) (out ++ instances))
    (hnot : ∀ id tid, .finished id tid ∉ instances) :
    Agrees ids pid (out ++ instances)
      (p.deliver ((ClusterManager.extracted S s instances).filterMap workerMessage)) := by
  have hissued := h.announce hfresh hnot
  rw [ClusterManager.extracted, List.filterMap_append]
  split
  · refine ⟨?_, h.runs, h.sends⟩
    have hbooked := hissued.booked.exit
    simp only [deliver, List.append_assoc] at hbooked
    exact hbooked
  · rw [List.filterMap_nil, List.append_nil]
    exact hissued

/-- The cluster manager takes tasks from the process. -/
theorem Agrees.taken (h : Agrees ids pid out p) {m : ClusterMessage} {outbox : List ClusterMessage}
    (houtbox : p.outbox = m :: outbox) (hm : reported m = none) :
    Agrees ids pid out { p with outbox := outbox } := by
  refine ⟨?_, h.runs, fun m hm => h.sends m (houtbox ▸ List.mem_cons_of_mem _ hm)⟩
  have hbooked := h.booked
  rw [houtbox, List.filterMap_cons, hm] at hbooked
  exact hbooked

theorem Agrees.snoc_of_none (h : Agrees ids pid out p) (he : e.entry = none) :
    Agrees ids pid (out ++ [e]) p :=
  ⟨h.booked.snoc_of_none he, h.runs, h.sends⟩

/-- **The cluster manager is told** that a thread of the process has finished. -/
theorem Agrees.finish (h : Agrees ids pid out p) {id tid time : ℕ} {outbox : List ClusterMessage}
    (houtbox : p.outbox = .threadFinished id tid time :: outbox) :
    Agrees ids pid (out ++ [.finished id tid]) { p with outbox := outbox } := by
  refine ⟨?_, h.runs, fun m hm => h.sends m (houtbox ▸ List.mem_cons_of_mem _ hm)⟩
  have hbooked := h.booked
  rw [houtbox] at hbooked
  exact hbooked.finish

theorem Agrees.finish_other (h : Agrees ids pid out p) {id tid : ℕ} (hpid : info.processId tid ≠ pid) :
    Agrees ids pid (out ++ [.finished id tid]) p :=
  ⟨h.booked.finish_other hpid, h.runs, h.sends⟩

/-- A thread that is reported runs, on the process. -/
theorem Agrees.mem_holders (h : Agrees ids pid out p) {id tid time : ℕ} {outbox : List ClusterMessage}
    (houtbox : p.outbox = .threadFinished id tid time :: outbox) :
    info.processId tid = pid ∧ id ∈ holders out tid := by
  have hbooked := h.booked
  rw [houtbox] at hbooked
  have hreport : (id, tid) ∈ (ClusterMessage.threadFinished id tid time :: outbox).filterMap reported :=
    List.mem_filterMap.mpr ⟨_, List.mem_cons_self .., rfl⟩
  exact hbooked.mem_holders (List.mem_append_right _ hreport)

end Process

end FlexPS.Worker
