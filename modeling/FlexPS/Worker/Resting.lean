import FlexPS.Scheduler.Stalling
import FlexPS.Worker.Draining

/-!
# When nothing happens any more

When no process can make a step and the cluster manager has handled all messages, `Submit` has
returned, unless there are instances that cannot be placed: nobody waits for a message or a model that
is never sent.

## Main definitions

* `Works.serves` — what the cluster manager sees of the processes is what it may see.
* `Submission` — what has become of the last submission.
* `Transfers.Nearby` — messages about transfers are sent to processes of the cluster, and the threads
  that run have leaders.
* `AtRest` — nothing happens until the next submission.
* `system_rests_done` — the statement for two schedulers.
-/

namespace FlexPS.Worker

open Lib Scheduler

/-! ## What the cluster manager sees -/

section Works

variable {σ : Type} {S : TaskScheduler σ} {info : WorkerInfo} {ids : LocalIds info}
  {accepts : List SchedEvent → σ → List Task → Prop} {I : List SchedEvent → σ → Prop}
  {out o : List ClusterEvent} {sys sys' : System σ} {i : Move} {s : σ} {countThreshold : ℕ}

/-- A step is one of a process, or one of the cluster manager. -/
theorem System.step_cases (hstep : System.step S ids sys i = some (sys', o)) :
    ((∀ pid d, i ≠ .manage pid d) ∧ o = [] ∧ sys'.manager = sys.manager) ∨
    ∃ pid d m outbox c, i = .manage pid d ∧ (sys.processes pid).outbox = m :: outbox ∧
      ClusterManager.serve S sys.manager (m, d) = some (c, o) ∧ sys' = ⟨c, fun pid' =>
        (Function.update sys.processes pid { sys.processes pid with outbox := outbox } pid').deliver
          (o.filterMap workerMessage)⟩ := by
  have hprocess : ∀ {pid} {p : Option Process}, sys.atProcess pid p = some (sys', o) →
      o = [] ∧ sys'.manager = sys.manager := by
    intro pid p hat
    obtain ⟨p', -, heq⟩ := Option.map_eq_some_iff.mp hat
    obtain ⟨rfl, rfl⟩ := Prod.mk.inj heq
    exact ⟨rfl, rfl⟩
  cases i with
  | enter pid =>
      simp only [System.step] at hstep
      split at hstep
      · cases hstep
      · exact .inl ⟨(by rintro _ _ ⟨⟩), hprocess hstep⟩
  | manage pid d =>
      simp only [System.step] at hstep
      split at hstep
      · cases hstep
      · next m outbox houtbox =>
          obtain ⟨⟨c, o₁⟩, hserve, hstep⟩ := Option.bind_eq_some_iff.mp hstep
          obtain ⟨rfl, rfl⟩ := Prod.mk.inj (Option.some.inj hstep)
          exact .inr ⟨pid, d, m, outbox, c, rfl, houtbox, hserve, rfl⟩
  | _ => exact .inl ⟨(by rintro _ _ ⟨⟩), hprocess hstep⟩

/-- **The cluster manager sees** threads that finish and tasks that are accepted. -/
theorem Works.serves (hS : Exclusive info S accepts I) (hI : I [] s)
    (hdone : S.isFinished s = true) (h : Works S ids accepts s countThreshold out sys) :
    Serves S accepts (fun _ _ _ => True) s (.new countThreshold) out sys.manager := by
  obtain ⟨moves, halong, hrun⟩ := h
  have hstart : Consistent S I ids (scheduled []) (.start s countThreshold) :=
    consistent_start hI hdone ids countThreshold
  refine (run_along (I := fun out sys => Consistent S I ids (scheduled out) sys ∧
    Serves S accepts (fun _ _ _ => True) s (.new countThreshold) out sys.manager) ?_
    ⟨hstart, [], trivial, rfl⟩ halong hrun).2
  rintro out sys i sys' o ⟨hsys, inputs, halong, hrun⟩ hfair hstep
  refine ⟨?_, ?_⟩
  · rw [scheduled_append]
    exact hsys.step hS hfair hstep
  · rcases System.step_cases hstep with ⟨-, rfl, hmanager⟩ |
      ⟨pid, d, m, outbox, c, rfl, houtbox, hserve, rfl⟩
    · rw [List.append_nil, hmanager]
      exact ⟨inputs, halong, hrun⟩
    · refine ⟨inputs ++ [(m, d)], halong.snoc fun c' out' hrun' => ⟨?_, trivial⟩,
        run_snoc hrun hserve⟩
      obtain ⟨rfl, rfl⟩ := Prod.mk.inj (Option.some.inj (hrun.symm.trans hrun'))
      rw [List.nil_append]
      rcases (hsys.agrees pid).sends m (houtbox ▸ List.mem_cons_self ..) with
        ⟨id, tid, time, rfl⟩ | ⟨rfl, tasks, rfl⟩
      · exact ((hsys.agrees pid).mem_holders houtbox).2
      · exact hfair tasks outbox houtbox

end Works

/-! ## The last submission -/

/-- The exit signal has been sent after the last submission. -/
theorem exitSent_append {out o : List ClusterEvent} (h : exitSent (out ++ o) = true) :
    exits o ≠ 0 ∨ exitSent out = true ∧ ∀ tasks, .scheduled (.submitted tasks) ∉ o := by
  induction o using List.reverseRecOn with
  | nil => exact .inr ⟨by rwa [List.append_nil] at h, fun _ => List.not_mem_nil⟩
  | append_singleton o e ih =>
      have hexits : exits (o ++ [e]) = exits o + exits [e] := List.countP_append ..
      rw [← List.append_assoc, exitSent, List.foldl_append] at h
      rw [hexits]
      rcases e with (tasks | _ | _ | _ | _) | _
      case exitSignal => exact .inl (Nat.succ_ne_zero _)
      case scheduled.submitted => exact absurd h Bool.false_ne_true
      all_goals
        refine (ih h).imp (fun hne => hne) (And.imp_right fun hnot tasks hmem => ?_)
        rcases List.mem_append.mp hmem with hmem | hmem
        · exact hnot tasks hmem
        · cases List.mem_singleton.mp hmem

/-- What has become of the last submission: `Submit` returns when the exit signal has been sent, and
while it waits for it, the cluster manager has received the tasks. -/
structure Submission (out : List ClusterEvent) (p : Process) : Prop where
  answered : exitSent out = true → p.phase = .outside ∨ p.pending = 1
  received : p.phase = .outside ∨ p.pending = 1 ∨ ∃ tasks, .scheduled (.submitted tasks) ∈ out

section Submission

variable {σ : Type} {S : TaskScheduler σ} {info : WorkerInfo} {ids : LocalIds info}
  {accepts : List SchedEvent → σ → List Task → Prop} {I : List SchedEvent → σ → Prop}
  {out o : List ClusterEvent} {sys sys' : System σ} {i : Move} {s : σ} {countThreshold pid n : ℕ}
  {p p' : Process}

theorem submission_start : Submission [] .start where
  answered h := absurd h Bool.false_ne_true
  received := .inl rfl

/-- `Submit` has returned, or nothing has changed. -/
theorem Submission.congr (h : Submission out p)
    (hp : p'.phase = .outside ∨ p'.pending = p.pending ∧ p.phase ≠ .outside) : Submission out p' := by
  rcases hp with hphase | ⟨hpending, hphase⟩
  · exact ⟨fun _ => .inl hphase, .inl hphase⟩
  · refine ⟨fun hsent => .inr ?_, .inr (hpending ▸ h.received.resolve_left hphase)⟩
    rw [hpending]
    exact (h.answered hsent).resolve_left hphase

/-- The first process makes a step, which is no submission. -/
theorem worker_pending (hworker : i.worker = some 0)
    (hstep : System.step S ids sys i = some (sys', o)) :
    (sys'.processes 0).phase = .outside ∨ (sys'.processes 0).pending = (sys.processes 0).pending ∧
      (sys.processes 0).phase ≠ .outside := by
  have hprocess : ∀ {q : Option Process}, sys.atProcess 0 q = some (sys', o) →
      (∀ p', q = some p' → p'.phase = .outside ∨ p'.pending = (sys.processes 0).pending ∧
        (sys.processes 0).phase ≠ .outside) →
      (sys'.processes 0).phase = .outside ∨ (sys'.processes 0).pending = (sys.processes 0).pending ∧
        (sys.processes 0).phase ≠ .outside := by
    intro q hat hq
    obtain ⟨p', hp', heq⟩ := Option.map_eq_some_iff.mp hat
    obtain ⟨rfl, rfl⟩ := Prod.mk.inj heq
    dsimp only
    rw [Function.update_self]
    exact hq p' hp'
  cases i with
  | submit tasks => cases hworker
  | enter pid =>
      obtain rfl := Option.some.inj hworker
      simp only [System.step, if_true] at hstep
      cases hstep
  | receive pid =>
      obtain rfl := Option.some.inj hworker
      refine hprocess hstep fun p' hp' => ?_
      unfold Process.receive at hp'
      split at hp'
      · next hphase =>
          split at hp'
          · cases hp'
          · next instance_ inbox hinbox =>
              obtain ⟨r, -, rfl⟩ := Option.map_eq_some_iff.mp hp'
              refine .inr ⟨?_, fun heq => Phase.noConfusion (hphase.symm.trans heq)⟩
              simp only [Process.pending]
              rw [hinbox, List.countP_cons_of_neg Bool.false_ne_true]
          · obtain rfl := Option.some.inj hp'
            exact .inl rfl
      · cases hp'
  | complete pid k =>
      obtain rfl := Option.some.inj hworker
      refine hprocess hstep fun p' hp' => ?_
      obtain ⟨th, -, rfl⟩ := Option.map_eq_some_iff.mp hp'
      by_cases hphase : (sys.processes 0).phase = .outside
      · exact .inl hphase
      · exact .inr ⟨rfl, hphase⟩
  | report pid k =>
      obtain rfl := Option.some.inj hworker
      refine hprocess hstep fun p' hp' => ?_
      unfold Process.report at hp'
      split at hp'
      · next hphase =>
          obtain ⟨th, -, hp'⟩ := Option.bind_eq_some_iff.mp hp'
          obtain ⟨r, -, hp'⟩ := Option.bind_eq_some_iff.mp hp'
          obtain rfl := Option.some.inj hp'
          refine .inr ⟨?_, fun heq => Phase.noConfusion (hphase.symm.trans heq)⟩
          simp only [Process.pending]
          rw [List.countP_append]
          rfl
      · cases hp'
  | remove pid =>
      obtain rfl := Option.some.inj hworker
      refine hprocess hstep fun p' hp' => ?_
      unfold Process.remove at hp'
      split at hp'
      · next id hphase =>
          have hnot : (sys.processes 0).phase ≠ .outside := fun heq =>
            Phase.noConfusion (hphase.symm.trans heq)
          simp only at hp'
          split at hp'
          · obtain ⟨r, -, rfl⟩ := Option.map_eq_some_iff.mp hp'
            exact .inr ⟨rfl, hnot⟩
          · obtain rfl := Option.some.inj hp'
            exact .inr ⟨rfl, hnot⟩
      · cases hp'
  | manage pid d => cases hworker

/-- A message of the cluster manager that all tasks have finished is received. -/
theorem Session.pending_of_exits {done : Bool} (h : Session done (p.deliver (o.filterMap workerMessage)))
    (hexits : exits o ≠ 0) : (p.deliver (o.filterMap workerMessage)).pending = 1 := by
  have honce := h.once
  have hcount : ((p.inbox ++ o.filterMap workerMessage).countP WorkerMessage.isFinished) =
      p.inbox.countP WorkerMessage.isFinished + exits o := by
    rw [List.countP_append, (countP_messages o).2]
  simp only [Process.pending, Process.deliver, hcount] at honce ⊢
  omega

theorem submission_submit {done : Bool} {tasks : List Task} (h : Session done p)
    (hstep : p.submit tasks = some p') : Submission out p' := by
  have honce := (h.submit hstep).once
  unfold Process.submit at hstep
  split at hstep
  · obtain rfl := Option.some.inj hstep
    have hinit : (p.outbox ++ [ClusterMessage.init tasks]).countP isInit =
        p.outbox.countP isInit + 1 := List.countP_append ..
    have hone : ({ p with
        phase := .waiting
        outbox := p.outbox ++ [.init tasks] } : Process).pending = 1 := by
      simp only [Process.pending, hinit] at honce ⊢
      omega
    exact ⟨fun _ => .inr hone, .inr (.inl hone)⟩
  · cases hstep

/-- **A round of the loop of the cluster manager**: when it sends the exit signal, the first process
receives it. -/
theorem Consistent.submission_manage (hS : Exclusive info S accepts I)
    (h : Consistent S I ids (scheduled out) sys) (hsubmission : Submission out (sys.processes 0))
    {m : ClusterMessage} {d : Draw} {outbox : List ClusterMessage} {c : ClusterManager σ}
    (houtbox : (sys.processes pid).outbox = m :: outbox)
    (hserve : ClusterManager.serve S sys.manager (m, d) = some (c, o))
    (h' : Session (S.isFinished c.taskScheduler) (p.deliver (o.filterMap workerMessage))) :
    Submission (out ++ o) (p.deliver (o.filterMap workerMessage)) := by
  rcases (h.agrees pid).sends m (houtbox ▸ List.mem_cons_self ..) with
    ⟨id, tid, time, rfl⟩ | ⟨rfl, tasks, rfl⟩
  · have hid := ((h.agrees pid).mem_holders houtbox).2
    obtain ⟨hphase, hpending⟩ :=
      h.session.working fun hdone => hS.idle h.scheduler hdone id ⟨tid, hid⟩
    have hnot : ¬ ((sys.processes 0).phase = .outside ∨ (sys.processes 0).pending = 1) := by
      rintro (heq | heq)
      · exact hphase heq
      · omega
    refine ⟨fun hsent => ?_, ?_⟩
    · rcases exitSent_append hsent with hexits | ⟨hsent, -⟩
      · exact .inr (h'.pending_of_exits hexits)
      · exact absurd (hsubmission.answered hsent) hnot
    · obtain ⟨tasks, hmem⟩ := (or_assoc.mpr hsubmission.received).resolve_left hnot
      exact .inr (.inr ⟨tasks, List.mem_append_left _ hmem⟩)
  · have hmem : .scheduled (.submitted tasks) ∈ o := by
      obtain ⟨s₁, e, hstep, hcases⟩ := ClusterManager.serve_cases rfl hserve
      obtain ⟨s₂, -, heq⟩ := Option.map_eq_some_iff.mp hstep
      obtain ⟨rfl, he⟩ := Prod.mk.inj heq
      obtain rfl := (List.cons.inj he).1
      rcases hcases with ⟨_, -, -, rfl⟩ | ⟨_, _, _, -, -, -, rfl⟩
      · exact List.mem_cons_self ..
      · exact List.mem_cons_self ..
    refine ⟨fun hsent => ?_, .inr (.inr ⟨tasks, List.mem_append_right _ hmem⟩)⟩
    rcases exitSent_append hsent with hexits | ⟨-, hnone⟩
    · exact .inr (h'.pending_of_exits hexits)
    · exact absurd hmem (hnone tasks)

/-- **Every run** keeps account of the last submission. -/
theorem Works.submission (hS : Exclusive info S accepts I) (hI : I [] s)
    (hdone : S.isFinished s = true) (h : Works S ids accepts s countThreshold out sys) :
    Submission out (sys.processes 0) := by
  obtain ⟨moves, halong, hrun⟩ := h
  have hstart : Consistent S I ids (scheduled []) (.start s countThreshold) :=
    consistent_start hI hdone ids countThreshold
  refine (run_along (I := fun out sys => Consistent S I ids (scheduled out) sys ∧
    Submission out (sys.processes 0)) ?_ ⟨hstart, submission_start⟩ halong hrun).2
  rintro out sys i sys' o ⟨hsys, hsubmission⟩ hfair hstep
  have hsys' := hsys.step hS hfair hstep
  refine ⟨by rwa [scheduled_append], ?_⟩
  have hworks : ∀ pid, i.worker = some pid → Submission (out ++ o) (sys'.processes 0) := by
    intro pid hworker
    obtain ⟨rfl, -⟩ := worker_cases hworker hstep
    rw [List.append_nil]
    by_cases hpid : pid = 0
    · subst hpid
      exact hsubmission.congr (worker_pending hworker hstep)
    · rwa [(work_step hworker hstep).2 0 (Ne.symm hpid)]
  cases i with
  | submit tasks =>
      obtain ⟨p', hp', heq⟩ := Option.map_eq_some_iff.mp hstep
      obtain ⟨rfl, rfl⟩ := Prod.mk.inj heq
      rw [List.append_nil]
      dsimp only
      rw [Function.update_self]
      exact submission_submit hsys.session hp'
  | manage pid d =>
      rcases System.step_cases hstep with ⟨hnot, -⟩ |
        ⟨pid', d', m, outbox, c, -, houtbox, hserve, rfl⟩
      · exact absurd rfl (hnot pid d)
      · exact hsys.submission_manage hS hsubmission houtbox hserve hsys'.session
  | _ => exact hworks _ rfl

end Submission

/-! ## Threads and their leaders -/

/-- Messages about transfers are sent to processes of the cluster, and the threads that run have
leaders. -/
structure Transfers.Nearby {σ M : Type} (info : WorkerInfo) (x : Transfers σ M) : Prop where
  near : ∀ pid c, c ∈ x.commands pid ++ x.signals pid → pid < info.numProcesses
  led : ∀ pid th, th ∈ (x.system.processes pid).running → ∃ leader, x.leaders pid th.1 = some leader

section Nearby

variable {σ M : Type} {S : TaskScheduler σ} {info : WorkerInfo} {ids : LocalIds info}
  {dmt : ℕ → Bool} {accepts : List SchedEvent → σ → List Task → Prop}
  {I : List SchedEvent → σ → Prop} {out o : List (TransferEvent M)} {x x' : Transfers σ M}
  {events : List ClusterEvent} {sys sys' : System σ} {i : TransferMove M} {j : Move}
  {last last' : ℕ → Option Instance} {transfers : List (ℕ × Transfer)} {instance_ : Instance}
  {s : σ} {countThreshold pid id tid : ℕ} {th : ℕ × ℕ}

/-- A thread runs on, or starts. -/
theorem running_cases (hstep : System.step S ids sys j = some (sys', events))
    (hth : th ∈ (sys'.processes pid).running) : th ∈ (sys.processes pid).running ∨
      ∃ instance_ inbox, j = .receive pid ∧ (sys.processes pid).inbox = .task instance_ :: inbox ∧
        instance_.localTids pid ≠ [] ∧ th.1 = instance_.id := by
  have hprocess : ∀ {pid'} {q : Option Process}, sys.atProcess pid' q = some (sys', events) →
      (∀ p', q = some p' → ∀ th ∈ p'.running, th ∈ (sys.processes pid').running) →
      th ∈ (sys.processes pid).running := by
    intro pid' q hat hq
    obtain ⟨p', hp', heq⟩ := Option.map_eq_some_iff.mp hat
    obtain ⟨rfl, rfl⟩ := Prod.mk.inj heq
    dsimp only at hth
    rw [Function.update_apply] at hth
    split at hth
    · next heq => exact heq ▸ hq p' hp' th hth
    · exact hth
  cases j with
  | submit tasks =>
      refine .inl (hprocess hstep fun p' hp' => ?_)
      unfold Process.submit at hp'
      split at hp'
      · obtain rfl := Option.some.inj hp'
        exact fun _ hth => hth
      · cases hp'
  | enter pid' =>
      simp only [System.step] at hstep
      split at hstep
      · cases hstep
      · refine .inl (hprocess hstep fun p' hp' => ?_)
        unfold Process.enter at hp'
        split at hp'
        · obtain rfl := Option.some.inj hp'
          exact fun _ hth => hth
        · cases hp'
  | receive pid' =>
      obtain ⟨p', hp', heq⟩ := Option.map_eq_some_iff.mp hstep
      obtain ⟨rfl, rfl⟩ := Prod.mk.inj heq
      dsimp only at hth
      rw [Function.update_apply] at hth
      split at hth
      · next heq =>
          subst heq
          unfold Process.receive at hp'
          split at hp'
          · split at hp'
            · cases hp'
            · next instance_ inbox hinbox =>
                obtain ⟨⟨r, started⟩, hrun, rfl⟩ := Option.map_eq_some_iff.mp hp'
                rcases List.mem_append.mp hth with hth | hth
                · exact .inl hth
                · refine .inr ⟨instance_, inbox, rfl, hinbox, ?_⟩
                  rcases InstanceRunner.runInstance_cases hrun with
                    ⟨-, -, rfl⟩ | ⟨_, -, hne, rfl, -⟩
                  · exact absurd hth List.not_mem_nil
                  · obtain ⟨_, -, rfl⟩ := List.mem_map.mp hth
                    exact ⟨hne, rfl⟩
            · obtain rfl := Option.some.inj hp'
              exact .inl hth
          · cases hp'
      · exact .inl hth
  | complete pid' k =>
      refine .inl (hprocess hstep fun p' hp' => ?_)
      obtain ⟨_, -, rfl⟩ := Option.map_eq_some_iff.mp hp'
      exact fun _ hth => (List.eraseIdx_subset ..) hth
  | report pid' k =>
      refine .inl (hprocess hstep fun p' hp' => ?_)
      unfold Process.report at hp'
      split at hp'
      · obtain ⟨th, -, hp'⟩ := Option.bind_eq_some_iff.mp hp'
        obtain ⟨r, -, hp'⟩ := Option.bind_eq_some_iff.mp hp'
        obtain rfl := Option.some.inj hp'
        exact fun _ hth => hth
      · cases hp'
  | remove pid' =>
      refine .inl (hprocess hstep fun p' hp' => ?_)
      unfold Process.remove at hp'
      split at hp'
      · simp only at hp'
        split at hp'
        · obtain ⟨r, -, rfl⟩ := Option.map_eq_some_iff.mp hp'
          exact fun _ hth => hth
        · obtain rfl := Option.some.inj hp'
          exact fun _ hth => hth
      · cases hp'
  | manage pid' d =>
      rcases System.step_cases hstep with ⟨hnot, -⟩ | ⟨pid'', _, _, outbox, c, -, -, -, rfl⟩
      · exact absurd rfl (hnot pid' d)
      · refine .inl ?_
        dsimp only [Process.deliver] at hth
        rw [Function.update_apply] at hth
        split at hth
        · next heq => exact heq ▸ hth
        · exact hth

theorem leader_mem (h : instance_.leader = some (pid, tid)) : (pid, tid) ∈ instance_.threads := by
  unfold Instance.leader at h
  split at h
  · split at h
    · next rest hget =>
        obtain ⟨rfl, rfl⟩ := Prod.mk.inj (Option.some.inj h)
        refine Instance.mem_localTids.mp ?_
        rw [Instance.localTids, hget]
        exact List.mem_cons_self ..
    · cases h
  · cases h

/-- Messages about transfers are sent to the processes of last leaders. -/
theorem transfers_near (hlast : ∀ id instance_, last id = some instance_ → WellPlaced info instance_)
    (hevents : ∀ instance_, .scheduled (.issued instance_) ∈ events → WellPlaced info instance_)
    (hrun : run (sendInstances info dmt) last events = some (last', transfers)) :
    ∀ sent ∈ transfers, sent.1 < info.numProcesses := by
  have hplaced : ∀ e ∈ events, ∀ instance_, e = ClusterEvent.scheduled (.issued instance_) →
      WellPlaced info instance_ := by
    rintro _ hmem instance_ rfl
    exact hevents instance_ hmem
  refine (run_along (I := fun transfers last =>
    (∀ id instance_, last id = some instance_ → WellPlaced info instance_) ∧
      ∀ sent ∈ transfers, sent.1 < info.numProcesses) ?_
    ⟨hlast, fun _ hmem => absurd hmem List.not_mem_nil⟩ (along_of_forall hplaced [] last) hrun).2
  rintro sent last e last' sent' ⟨hlast, hsent⟩ he hstep
  by_cases hissued : ∃ instance_, e = .scheduled (.issued instance_)
  · obtain ⟨instance_, rfl⟩ := hissued
    obtain ⟨new, hnew, heq⟩ := Option.map_eq_some_iff.mp hstep
    obtain ⟨rfl, rfl⟩ := Prod.mk.inj heq
    refine ⟨fun id other hother => ?_, List.forall_mem_append.mpr ⟨hsent, ?_⟩⟩
    · rw [Function.update_apply] at hother
      split at hother
      · obtain rfl := Option.some.inj hother
        exact he _ rfl
      · exact hlast id other hother
    · unfold sendLastInstance at hnew
      split at hnew
      · obtain rfl := Option.some.inj hnew
        exact fun _ hmem => absurd hmem List.not_mem_nil
      · split at hnew
        · obtain rfl := Option.some.inj hnew
          exact fun _ hmem => absurd hmem List.not_mem_nil
        · simp only [Option.bind_eq_bind, Option.bind_eq_some_iff] at hnew
          obtain ⟨other, hother, ⟨pid, tid⟩, hleader, _, -, hnew⟩ := hnew
          obtain rfl := Option.some.inj hnew
          refine List.forall_mem_singleton.mpr (info.processId_lt tid ?_)
          exact ((hlast _ other hother).2 _ (leader_mem hleader)).2
  · have hsame : sendInstances info dmt last e = some (last, []) := by
      rcases e with (_ | instance_ | _ | _ | _) | _
      case scheduled.issued => exact absurd ⟨instance_, rfl⟩ hissued
      all_goals rfl
    obtain ⟨rfl, rfl⟩ := Prod.mk.inj (Option.some.inj (hsame.symm.trans hstep))
    rw [List.append_nil]
    exact ⟨hlast, hsent⟩

/-- What is issued is placed well. -/
theorem Consistent.wellPlaced {history : List SchedEvent} (hS : Exclusive info S accepts I)
    (h : Consistent S I ids history sys) (hmem : .issued instance_ ∈ history) :
    WellPlaced info instance_ := by
  obtain ⟨before, after, rfl⟩ := List.append_of_mem hmem
  exact wellPlaced_of_fresh (hS.fresh h.scheduler before _ after rfl)

theorem nearby_start (s : σ) (countThreshold : ℕ) :
    Transfers.Nearby info (.start s countThreshold : Transfers σ M) where
  near _ _ hmem := absurd hmem List.not_mem_nil
  led _ _ hmem := absurd hmem List.not_mem_nil

/-- **A step of the cluster manager or of a process.** -/
theorem Handing.nearby_system (hS : HandsOver dmt info S accepts I) (h : Handing S I ids dmt out x)
    (hnearby : x.Nearby info) (hfair : j.Fair accepts (issued out) x.system)
    (hsys : System.step S ids x.system j = some (sys, events))
    (hrun : run (sendInstances info dmt) x.lastInstance events = some (last, transfers)) :
    Transfers.Nearby info { x with
      system := sys
      lastInstance := last
      signals := Transfers.signal x.signals transfers
      leaders := x.startLeader j } where
  near pid c hmem := by
    have hconsistent := h.consistent.step hS.toExclusive hfair hsys
    obtain ⟨spot, hdelivers⟩ := h.delivers
    have hnear := transfers_near (fun id instance_ hlast => h.consistent.wellPlaced hS.toExclusive
      (issued_of_lastInstance (hdelivers.last ▸ hlast))) (fun instance_ hissued =>
        hconsistent.wellPlaced hS.toExclusive (List.mem_append_right _
          (List.mem_filterMap.mpr ⟨_, hissued, rfl⟩))) hrun
    dsimp only [Transfers.signal] at hmem
    rw [← List.append_assoc] at hmem
    rcases List.mem_append.mp hmem with hmem | hmem
    · exact hnearby.near pid c hmem
    · obtain ⟨sent, hsent, -⟩ := List.mem_map.mp hmem
      obtain ⟨hsent, hpid⟩ := List.mem_filter.mp hsent
      exact of_decide_eq_true hpid ▸ hnear sent hsent
  led pid th hth := by
    dsimp only at hth ⊢
    rcases running_cases hsys hth with hth | ⟨instance_, inbox, rfl, hinbox, hne, hid⟩
    · obtain ⟨leader, hleader⟩ := hnearby.led pid th hth
      rcases startLeader_cases x j with hsame | ⟨pid', instance_, -, hstart⟩
      · exact ⟨leader, hsame ▸ hleader⟩
      · rw [hstart, updateEntry_apply]
        split
        · exact ⟨_, rfl⟩
        · exact ⟨leader, hleader⟩
    · simp only [Transfers.startLeader, hinbox]
      rw [if_neg hne, updateEntry_apply, if_pos ⟨rfl, hid⟩]
      exact ⟨_, rfl⟩

/-- **Every run**: what the cluster manager and the processes do in it is one of their runs. -/
theorem TransferRun.works (h : TransferRun S ids dmt accepts s countThreshold out x) :
    Works S ids accepts s countThreshold (out.filterMap TransferEvent.clusterEvent) x.system := by
  obtain ⟨moves, halong, hrun⟩ := h
  refine run_along (I := fun out (x : Transfers σ M) => Works S ids accepts s countThreshold
    (out.filterMap TransferEvent.clusterEvent) x.system) ?_ ⟨[], trivial, rfl⟩ halong hrun
  rintro out x i x' o hworks hfair hstep
  have haside : x'.system = x.system → o.filterMap TransferEvent.clusterEvent = [] →
      Works S ids accepts s countThreshold ((out ++ o).filterMap TransferEvent.clusterEvent)
        x'.system := by
    intro hsystem hnone
    rwa [List.filterMap_append, hnone, List.append_nil, hsystem]
  cases i with
  | system j =>
      simp only [Transfers.step] at hstep
      split at hstep
      · obtain ⟨⟨sys, events⟩, hsys, hstep⟩ := Option.bind_eq_some_iff.mp hstep
        obtain ⟨⟨last, transfers⟩, -, hstep⟩ := Option.bind_eq_some_iff.mp hstep
        obtain ⟨rfl, rfl⟩ := Prod.mk.inj (Option.some.inj hstep)
        obtain ⟨moves, halong, hrun⟩ := hworks
        have hevents : (events.map TransferEvent.cluster).filterMap
            (TransferEvent.clusterEvent (M := M)) = events := by
          rw [List.filterMap_map]
          exact List.filterMap_some
        rw [List.filterMap_append, hevents]
        refine ⟨moves ++ [j], halong.snoc fun sys' out' hrun' => ?_, run_snoc hrun hsys⟩
        obtain ⟨rfl, rfl⟩ := Prod.mk.inj (Option.some.inj (hrun.symm.trans hrun'))
        exact hfair
      · cases hstep
  | forward pid =>
      obtain ⟨y, hy, heq⟩ := Option.map_eq_some_iff.mp hstep
      obtain ⟨rfl, rfl⟩ := Prod.mk.inj heq
      exact haside (Transfers.forward_system hy) rfl
  | send pid =>
      obtain ⟨y, hy, heq⟩ := Option.map_eq_some_iff.mp hstep
      obtain ⟨rfl, rfl⟩ := Prod.mk.inj heq
      exact haside (Transfers.send_system hy) rfl
  | load pid id stored =>
      simp only [Transfers.step] at hstep
      split at hstep
      · obtain ⟨_, _, -, -, -, -, rfl⟩ := load_cases hstep
        exact haside (Transfers.load_system hstep) rfl
      · cases hstep
  | dump pid id model =>
      simp only [Transfers.step] at hstep
      split at hstep
      · obtain ⟨_, _, -, -, -, -, rfl⟩ := dump_cases hstep
        exact haside (Transfers.dump_system hstep) rfl
      · cases hstep

theorem forward_queue (h : x.forward pid = some x') (pid' : ℕ) (c : Transfer)
    (hmem : c ∈ x'.commands pid' ++ x'.signals pid') : c ∈ x.commands pid' ++ x.signals pid' := by
  unfold Transfers.forward at h
  split at h
  · split at h
    · cases h
    · next c' signals hsignals =>
        obtain rfl := Option.some.inj h
        by_cases hpid : pid' = pid
        · subst hpid
          simpa only [Function.update_self, hsignals, List.append_assoc,
            List.singleton_append] using hmem
        · simpa only [Function.update_of_ne hpid] using hmem
  · cases h

theorem send_queue (h : x.send pid = some x') (pid' : ℕ) (c : Transfer)
    (hmem : c ∈ x'.commands pid' ++ x'.signals pid') : c ∈ x.commands pid' ++ x.signals pid' := by
  unfold Transfers.send at h
  split at h
  · cases h
  · next c' commands hcommands =>
      obtain ⟨_, -, rfl⟩ := Option.map_eq_some_iff.mp h
      by_cases hpid : pid' = pid
      · subst hpid
        simp only [Function.update_self] at hmem
        rw [hcommands, List.cons_append]
        exact List.mem_cons_of_mem _ hmem
      · simpa only [Function.update_of_ne hpid] using hmem

/-- The models do not concern the threads. -/
theorem Transfers.Nearby.congr (h : x.Nearby info) (hsystem : x'.system = x.system)
    (hnear : ∀ pid c, c ∈ x'.commands pid ++ x'.signals pid → c ∈ x.commands pid ++ x.signals pid)
    (hled : ∀ pid id leader, x.leaders pid id = some leader →
      ∃ leader', x'.leaders pid id = some leader') :
    x'.Nearby info where
  near pid c hmem := h.near pid c (hnear pid c hmem)
  led pid th hth := by
    rw [hsystem] at hth
    obtain ⟨leader, hleader⟩ := h.led pid th hth
    exact hled pid th.1 leader hleader

theorem Handing.nearby_step (hS : HandsOver dmt info S accepts I) (h : Handing S I ids dmt out x)
    (hnearby : x.Nearby info) (hfair : i.Fair accepts (issued out) x)
    (hstep : x.step S ids dmt i = some (x', o)) : x'.Nearby info := by
  have hled : ∀ pid id leader leader',
      x'.leaders = updateEntry x.leaders pid id (some leader') →
      ∀ pid' id', x.leaders pid' id' = some leader → ∃ l, x'.leaders pid' id' = some l := by
    intro pid id leader leader' hleaders pid' id' hleader
    rw [hleaders, updateEntry_apply]
    split
    · exact ⟨_, rfl⟩
    · exact ⟨leader, hleader⟩
  cases i with
  | system j =>
      simp only [Transfers.step] at hstep
      split at hstep
      · obtain ⟨⟨sys, events⟩, hsys, hstep⟩ := Option.bind_eq_some_iff.mp hstep
        obtain ⟨⟨last, transfers⟩, hrun, hstep⟩ := Option.bind_eq_some_iff.mp hstep
        obtain ⟨rfl, -⟩ := Prod.mk.inj (Option.some.inj hstep)
        exact h.nearby_system hS hnearby hfair hsys hrun
      · cases hstep
  | forward pid =>
      obtain ⟨y, hy, heq⟩ := Option.map_eq_some_iff.mp hstep
      obtain ⟨rfl, -⟩ := Prod.mk.inj heq
      have hleaders := (underWay_forward (Nat.lt_succ_self pid) hy).1
      exact hnearby.congr (Transfers.forward_system hy) (forward_queue hy) fun _ _ leader hleader =>
        ⟨leader, hleaders ▸ hleader⟩
  | send pid =>
      obtain ⟨y, hy, heq⟩ := Option.map_eq_some_iff.mp hstep
      obtain ⟨rfl, -⟩ := Prod.mk.inj heq
      have hleaders := (underWay_send (Nat.lt_succ_self pid) hy).1
      exact hnearby.congr (Transfers.send_system hy) (send_queue hy) fun _ _ leader hleader =>
        ⟨leader, hleaders ▸ hleader⟩
  | load pid id stored =>
      simp only [Transfers.step] at hstep
      split at hstep
      · obtain ⟨_, _, -, hleaders, hsignals, hcommands, -⟩ := load_cases hstep
        refine hnearby.congr (Transfers.load_system hstep) (fun pid' c hmem => ?_)
          fun pid' id' leader hleader => hled _ _ _ _ hleaders pid' id' hleader
        rwa [hsignals, hcommands] at hmem
      · cases hstep
  | dump pid id model =>
      simp only [Transfers.step] at hstep
      split at hstep
      · obtain ⟨_, _, -, hleaders, hsignals, hcommands, -⟩ := dump_cases hstep
        refine hnearby.congr (Transfers.dump_system hstep) (fun pid' c hmem => ?_)
          fun pid' id' leader hleader => hled _ _ _ _ hleaders pid' id' hleader
        rwa [hsignals, hcommands] at hmem
      · cases hstep

theorem TransferRun.nearby (hS : HandsOver dmt info S accepts I) (hI : I [] s)
    (hdone : S.isFinished s = true)
    (h : TransferRun S ids dmt accepts s countThreshold out x) : x.Nearby info := by
  obtain ⟨moves, halong, hrun⟩ := h
  have hstart : Handing S I ids dmt ([] : List (TransferEvent M)) (.start s countThreshold) :=
    ⟨consistent_start hI hdone ids countThreshold, ⟨_, delivers_start s countThreshold ids dmt⟩,
      throughout_nil _⟩
  refine (run_along (I := fun out (x : Transfers σ M) => Handing S I ids dmt out x ∧ x.Nearby info)
    ?_ ⟨hstart, nearby_start s countThreshold⟩ halong hrun).2
  rintro out x i x' o ⟨hx, hnearby⟩ hfair hstep
  exact ⟨hx.step hS hfair hstep, hx.nearby_step hS hnearby hfair hstep⟩

end Nearby

/-! ## Nothing happens any more -/

/-- Nothing happens at the first `n` processes until the next submission: no process and no leader can
make a step, and the cluster manager has received all messages. -/
structure AtRest {σ M : Type} (S : TaskScheduler σ) {info : WorkerInfo} (ids : LocalIds info)
    (dmt : ℕ → Bool) (n : ℕ) (x : Transfers σ M) : Prop where
  stuck : ∀ i, TransferMove.Within n i → (∀ pid d, i ≠ .system (.manage pid d)) →
    x.step S ids dmt i = none
  handled : ∀ pid, pid < n → (x.system.processes pid).outbox = []

section Rest

variable {σ M : Type} {S : TaskScheduler σ} {info : WorkerInfo} {ids : LocalIds info}
  {dmt : ℕ → Bool} {accepts : List SchedEvent → σ → List Task → Prop}
  {I : List SchedEvent → σ → Prop} {out : List (TransferEvent M)} {x : Transfers σ M} {j : Move}
  {s : σ} {pid id n : ℕ}

/-- A worker is stuck, unless a thread of it waits for its leader. -/
theorem AtRest.worker (h : AtRest S ids dmt n x) (hworker : j.worker = some pid) (hpid : pid < n)
    (hmay : x.mayStep dmt j = true) : System.step S ids x.system j = none := by
  rw [Option.eq_none_iff_forall_ne_some]
  rintro ⟨sys, events⟩ hsys
  obtain ⟨rfl, -⟩ := worker_cases hworker hsys
  have hwithin : j.Within n := by
    cases j with
    | submit _ => cases hworker
    | manage _ _ => cases hworker
    | _ =>
        obtain rfl := Option.some.inj hworker
        exact hpid
  have hstuck := h.stuck (.system j) hwithin (by
    rintro pid d heq
    obtain rfl := TransferMove.system.inj heq
    cases hworker)
  simp only [Transfers.step, if_pos hmay, hsys, run_nil, Option.bind_eq_bind,
    Option.bind_some] at hstuck
  cases hstuck

/-- Every worker waits for a message, and none is under way, while `Submit` has not returned. -/
theorem AtRest.waits (h : AtRest S ids dmt n x) (hS : Exclusive info S accepts I)
    (hconsistent : Consistent S I ids (issued out) x.system)
    (hphase : (x.system.processes 0).phase ≠ .outside) (hpid : pid < n) :
    (x.system.processes pid).phase = .waiting ∧ (x.system.processes pid).inbox = [] := by
  have hnone : ∀ {j} {q : Option Process}, j.worker = some pid → x.mayStep dmt j = true →
      System.step S ids x.system j = x.system.atProcess pid q → ∀ p', q ≠ some p' := by
    rintro j q hworker hmay hstep p' rfl
    cases hstep.symm.trans (h.worker hworker hpid hmay)
  have hwaiting : (x.system.processes pid).phase = .waiting := by
    cases hpidPhase : (x.system.processes pid).phase with
    | outside =>
        have hne : pid ≠ 0 := by
          rintro rfl
          exact hphase hpidPhase
        have henter : (x.system.processes pid).enter =
            some { x.system.processes pid with phase := .waiting } := if_pos hpidPhase
        exact absurd henter (hnone (j := .enter pid) rfl rfl (if_neg hne) _)
    | waiting => rfl
    | removing instanceId =>
        obtain ⟨p', hp'⟩ := Process.remove_some hpidPhase
        exact absurd hp' (hnone (j := .remove pid) rfl rfl rfl p')
  refine ⟨hwaiting, ?_⟩
  by_contra hinbox
  obtain ⟨p', hp'⟩ := (hconsistent.agrees pid).receive_some (hconsistent.one hS) hwaiting hinbox
  exact hnone (j := .receive pid) rfl rfl rfl p' hp'

/-- No message about a transfer is under way. -/
theorem AtRest.delivered (h : AtRest S ids dmt n x) (hS : HandsOver dmt info S accepts I)
    (hhanding : Handing S I ids dmt out x) (hnearby : x.Nearby info) (hn : info.numProcesses ≤ n)
    (hphase : (x.system.processes 0).phase ≠ .outside) (pid : ℕ) :
    x.commands pid ++ x.signals pid = [] := by
  refine List.eq_nil_iff_forall_not_mem.mpr fun c hmem => ?_
  have hpid : pid < n := (hnearby.near pid c hmem).trans_le hn
  have hcommands : x.commands pid = [] := by
    by_contra hne
    obtain ⟨x', hx'⟩ := (hhanding.neverLost hS).sent pid hne
    have hstuck := h.stuck (.send pid) hpid (by rintro _ _ ⟨⟩)
    simp only [Transfers.step, hx', Option.map_some] at hstuck
    cases hstuck
  have hwaiting := (h.waits hS.toExclusive hhanding.consistent hphase hpid).1
  rw [hcommands, List.nil_append] at hmem
  obtain ⟨c', signals, hsignals⟩ := List.exists_cons_of_ne_nil (List.ne_nil_of_mem hmem)
  have hstuck := h.stuck (.forward pid) hpid (by rintro _ _ ⟨⟩)
  simp only [Transfers.step, Transfers.forward, if_pos hwaiting, hsignals, Option.map_some] at hstuck
  cases hstuck

/-- **No leader waits for its model**, and none has to dump it. -/
theorem AtRest.notLeading [Inhabited M] (h : AtRest S ids dmt n x)
    (hS : HandsOver dmt info S accepts I) (hhanding : Handing S I ids dmt out x)
    (hnearby : x.Nearby info) (hn : info.numProcesses ≤ n)
    (hphase : (x.system.processes 0).phase ≠ .outside) (hdmt : dmt id = true) (pid : ℕ) :
    NotLeading (x.leaders pid id) := by
  obtain ⟨spot, hdelivers⟩ := hhanding.delivers
  have hsituation := hdelivers.situation id hdmt
  generalize lastInstance (issued out) id = last at hsituation
  generalize lastModel out id = e at hsituation
  generalize spot id = sp at hsituation
  cases hsituation with
  | resting _ _ _ _ hleader _ => exact hleader pid
  | announced instance_ pid' tid _ _ hleads hinbox _ _ _ =>
      obtain ⟨hpid, htid⟩ := hleads.thread
      have hlt : pid' < n := (hpid ▸ info.processId_lt tid htid).trans_le hn
      rw [(h.waits hS.toExclusive hhanding.consistent hphase hlt).2] at hinbox
      exact absurd hinbox List.not_mem_nil
  | started instance_ pid' tid stage _ _ hleads _ _ hleader _ hdoing =>
      exfalso
      obtain ⟨hpid, htid⟩ := hleads.thread
      have hlt : pid' < n := (hpid ▸ info.processId_lt tid htid).trans_le hn
      cases hdoing with
      | working model =>
          have hstuck := h.stuck (.dump pid' id model) hlt (by rintro _ _ ⟨⟩)
          simp only [Transfers.step, Transfers.dump, hdmt, if_true, hleader] at hstuck
          cases hstuck
      | fresh _ _ _ =>
          have hstuck := h.stuck (.load pid' id default) hlt (by rintro _ _ ⟨⟩)
          simp only [Transfers.step, Transfers.load, hdmt, if_true, hleader] at hstuck
          by_cases hepoch : instance_.epoch = 0
          · rw [if_pos hepoch] at hstuck
            cases hstuck
          · obtain ⟨tid', rest, hget, hmail | ⟨pid'', hmem⟩⟩ :=
              (hhanding.neverLost hS).owed pid' id instance_ hdmt hleader hepoch
            · obtain ⟨model, models, hmail⟩ := List.exists_cons_of_ne_nil hmail
              rw [if_neg hepoch, hget] at hstuck
              simp only [List.head?_cons, Option.bind_eq_bind, Option.bind_some, hmail] at hstuck
              cases hstuck
            · rw [h.delivered hS hhanding hnearby hn hphase pid''] at hmem
              exact absurd hmem List.not_mem_nil

/-- No thread waits for its leader. -/
theorem AtRest.mayStep [Inhabited M] (h : AtRest S ids dmt n x) (hS : HandsOver dmt info S accepts I)
    (hhanding : Handing S I ids dmt out x) (hnearby : x.Nearby info) (hn : info.numProcesses ≤ n)
    (hphase : (x.system.processes 0).phase ≠ .outside) (j : Move) : x.mayStep dmt j = true := by
  cases j with
  | complete pid k =>
      rw [Transfers.mayStep]
      cases hth : (x.system.processes pid).running[k]? with
      | none => rfl
      | some th =>
          rw [Option.map_some, Option.getD_some, Transfers.mayFinish]
          by_cases hdmt : dmt th.1 = true
          · obtain ⟨⟨instance_, stage⟩, hleader⟩ := hnearby.led pid th (List.mem_of_getElem? hth)
            obtain rfl := h.notLeading hS hhanding hnearby hn hphase hdmt pid instance_ stage hleader
            rw [hleader]
            exact Bool.or_true _
          · rw [Bool.eq_false_of_not_eq_true hdmt]
            rfl
  | _ => rfl

/-- **Nothing runs** when nothing happens any more. -/
theorem AtRest.quiescent [Inhabited M] (h : AtRest S ids dmt n x)
    (hS : HandsOver dmt info S accepts I) (hhanding : Handing S I ids dmt out x)
    (hnearby : x.Nearby info) (hn : info.numProcesses ≤ n)
    (hphase : (x.system.processes 0).phase ≠ .outside) : Quiescent (issued out) := by
  rintro id ⟨tid, hid⟩
  obtain ⟨a, m, haccounts⟩ := hS.accounts hhanding.consistent.scheduler
  have hpid : info.processId tid < n :=
    (info.processId_lt tid (haccounts.cluster tid id hid)).trans_le hn
  have hstuck : ∀ j, j.worker = some (info.processId tid) → System.step S ids x.system j = none :=
    fun j hworker => h.worker hworker hpid (h.mayStep hS hhanding hnearby hn hphase j)
  obtain ⟨time, hmem⟩ :=
    (hhanding.consistent.reports hS.toExclusive).reported _ hstuck id tid rfl hid
  rw [h.handled _ hpid] at hmem
  exact absurd hmem List.not_mem_nil

/-- **The submission has returned**, or no instance can be extracted. -/
theorem AtRest.done [Inhabited M] {countThreshold : ℕ} (h : AtRest S ids dmt n x)
    (hS : HandsOver dmt info S accepts I) (hI : I [] s) (hdone : S.isFinished s = true)
    (hrun : TransferRun S ids dmt accepts s countThreshold out x)
    (hsettled : NotStalled S (out.filterMap TransferEvent.clusterEvent) x.system.manager)
    (hn : info.numProcesses ≤ n) (hpos : 0 < n) :
    (x.system.processes 0).phase = .outside ∨
      S.isFinished x.system.manager.taskScheduler = false ∧
        ExtractsNothing S x.system.manager.taskScheduler ∧ Quiescent (issued out) := by
  have hhanding := hrun.handing hS hI hdone
  have hsubmission := hrun.works.submission hS.toExclusive hI hdone
  by_cases hphase : (x.system.processes 0).phase = .outside
  · exact .inl hphase
  · have hquiet := h.quiescent hS hhanding (hrun.nearby hS hI hdone) hn hphase
    obtain ⟨-, hinbox⟩ := h.waits hS.toExclusive hhanding.consistent hphase hpos
    have hpending : (x.system.processes 0).pending ≠ 1 := by
      rw [Process.pending, h.handled 0 hpos, hinbox]
      exact Nat.zero_ne_one
    obtain ⟨tasks, hmem⟩ := (hsubmission.received.resolve_left hphase).resolve_left hpending
    rcases hsettled ⟨tasks, hmem⟩ hquiet with ⟨-, hsent⟩ | ⟨hunfinished, hnothing⟩
    · exact absurd ((hsubmission.answered hsent).resolve_left hphase) hpending
    · exact .inr ⟨hunfinished, hnothing, hquiet⟩

end Rest

/-! ## The sequential scheduler -/

section Sequential

variable {info : WorkerInfo} {ids : LocalIds info} {dmt : ℕ → Bool} {out o : List ClusterEvent}
  {sys sys' : System SequentialTaskScheduler} {history instances : List SchedEvent} {d : Draw}
  {s s' : SequentialTaskScheduler}

/-- After an extraction an instance runs, or all tasks have finished. -/
theorem sequential_extracts (h : SequentialTaskScheduler.Inv info history s)
    (hextract : (SequentialTaskScheduler.scheduler info).extractInstances d s = some (s', instances))
    (hnot : .refused ∉ instances) :
    (SequentialTaskScheduler.scheduler info).isFinished s' = true ∨
      ¬ Quiescent (history ++ instances) := by
  rcases SequentialTaskScheduler.extract_cases h.placement.sound hextract with
    ⟨rfl, rfl, hnil | hbusy⟩ | ⟨task, rest, p', -, -, -, ⟨instance_, rfl, hplaced⟩ | ⟨rfl, -⟩⟩
  · exact .inl (List.isEmpty_iff.mpr hnil)
  · rw [List.append_nil]
    exact .inr fun hquiet => hbusy (h.idle_iff.mpr hquiet)
  · exact .inr fun hquiet =>
      hquiet _ ((busy_issued hplaced.ne_nil instance_.id).mpr (.inl rfl))
  · exact absurd (List.mem_singleton_self _) hnot

/-- **With the default threshold** an instance runs until all tasks have finished. -/
theorem sequential_runs (h : Works (SequentialTaskScheduler.scheduler info) ids
    (Transferable dmt AnyTasks) (.start info) 1 out sys) :
    (SequentialTaskScheduler.scheduler info).isFinished sys.manager.taskScheduler = true ∨
      ¬ Quiescent (scheduled out) := by
  have hS := (SequentialTaskScheduler.handsOver dmt info).toExclusive
  obtain ⟨moves, halong, hrun⟩ := h
  refine (run_along (I := fun out (sys : System SequentialTaskScheduler) =>
    Consistent (SequentialTaskScheduler.scheduler info) (SequentialTaskScheduler.Lasts dmt info) ids
      (scheduled out) sys ∧
    (sys.manager.schedulerTrigger.counter = 0 ∧ sys.manager.schedulerTrigger.countThreshold = 1) ∧
    ((SequentialTaskScheduler.scheduler info).isFinished sys.manager.taskScheduler = true ∨
      ¬ Quiescent (scheduled out))) ?_
    ⟨consistent_start (SequentialTaskScheduler.lasts_start dmt info) rfl ids 1, ⟨rfl, rfl⟩,
      .inl rfl⟩ halong hrun).2.2
  rintro out sys i sys' o ⟨hsys, ⟨hcounter, hthreshold⟩, hruns⟩ hfair hstep
  have hsys' := hsys.step hS hfair hstep
  refine ⟨by rwa [scheduled_append], ?_⟩
  rcases System.step_cases hstep with ⟨-, rfl, hmanager⟩ |
    ⟨pid, d, m, outbox, c, rfl, houtbox, hserve, rfl⟩
  · rw [hmanager, List.append_nil]
    exact ⟨⟨hcounter, hthreshold⟩, hruns⟩
  · have hanswer : ∀ {e : SchedEvent} {s₁},
        SequentialTaskScheduler.Lasts dmt info (scheduled out ++ [e]) s₁ →
        ((∃ instances, (SequentialTaskScheduler.scheduler info).extractInstances d s₁ =
            some (c.taskScheduler, instances) ∧ .refused ∉ instances ∧ o = .scheduled e ::
              ClusterManager.extracted (SequentialTaskScheduler.scheduler info) c.taskScheduler
                instances) ∨
          (∃ id tid time, m = .threadFinished id tid time ∧
            sys.manager.schedulerTrigger.counter + 1 ≠ sys.manager.schedulerTrigger.countThreshold ∧
            c.taskScheduler = s₁ ∧ o = [.scheduled e])) →
        (SequentialTaskScheduler.scheduler info).isFinished c.taskScheduler = true ∨
          ¬ Quiescent (scheduled (out ++ o)) := by
      rintro e s₁ hs₁ (⟨instances, hextract, hnot, rfl⟩ | ⟨_, _, _, -, hcount, -⟩)
      · have hscheduled : scheduled (out ++ .scheduled e :: ClusterManager.extracted
            (SequentialTaskScheduler.scheduler info) c.taskScheduler instances) =
            scheduled out ++ [e] ++ instances := by
          rw [scheduled_append, List.append_assoc]
          exact congrArg (scheduled out ++ e :: ·) (scheduled_extracted _ _ instances)
        rw [hscheduled]
        exact sequential_extracts hs₁.1.1 hextract hnot
      · exact absurd (by rw [hcounter, hthreshold]) hcount
    dsimp only
    rw [ClusterManager.serve_trigger hserve]
    rcases (hsys.agrees pid).sends m (houtbox ▸ List.mem_cons_self ..) with
      ⟨id, tid, time, rfl⟩ | ⟨rfl, tasks, rfl⟩
    · obtain ⟨s₁, e, hcall, hcases⟩ := ClusterManager.serve_cases rfl hserve
      obtain ⟨s₂, hfinish, heq⟩ := Option.map_eq_some_iff.mp hcall
      obtain ⟨rfl, he⟩ := Prod.mk.inj heq
      obtain rfl := (List.cons.inj he).1
      refine ⟨?_, hanswer (hS.finished hsys.scheduler ((hsys.agrees pid).mem_holders houtbox).2
        hfinish) hcases⟩
      simp only [ClusterMessage.trigger, SchedulerTrigger.hasEnoughNewThreads, hcounter, hthreshold]
      exact ⟨rfl, rfl⟩
    · obtain ⟨s₁, e, hcall, hcases⟩ := ClusterManager.serve_cases rfl hserve
      obtain ⟨s₂, hinit, heq⟩ := Option.map_eq_some_iff.mp hcall
      obtain ⟨rfl, he⟩ := Prod.mk.inj heq
      obtain rfl := (List.cons.inj he).1
      exact ⟨⟨hcounter, hthreshold⟩, hanswer (hS.submitted hsys.scheduler
        (hsys.session.done_of_init houtbox) (hfair tasks outbox houtbox) hinit) hcases⟩

end Sequential

/-- **The system rests when it is done.**  With the default threshold of the trigger, when nothing can
happen any more before the next submission, `Submit` has returned, under the sequential scheduler; and
under the greedy one, unless some task has not finished and, although no thread runs, no instance can
be extracted. -/
theorem system_rests_done (M : Type) [Inhabited M] {info : WorkerInfo} (ids : LocalIds info)
    (dmt : ℕ → Bool) (n : ℕ) (hn : info.numProcesses ≤ n) (hpos : 0 < n) :
    (∀ (out : List (TransferEvent M)) x, TransferRun (SequentialTaskScheduler.scheduler info) ids dmt
        (Transferable dmt AnyTasks) (.start info) 1 out x →
      AtRest (SequentialTaskScheduler.scheduler info) ids dmt n x →
      (x.system.processes 0).phase = .outside) ∧
    ∀ (out : List (TransferEvent M)) x, TransferRun (GreedyTaskScheduler.scheduler info) ids dmt
        (Transferable dmt DistinctTasks) (.start info) 1 out x →
      AtRest (GreedyTaskScheduler.scheduler info) ids dmt n x →
      (x.system.processes 0).phase = .outside ∨
        (GreedyTaskScheduler.scheduler info).isFinished x.system.manager.taskScheduler = false ∧
        ExtractsNothing (GreedyTaskScheduler.scheduler info) x.system.manager.taskScheduler ∧
        Quiescent (issued out) := by
  refine ⟨fun out x hrun hrest => ?_, fun out x hrun hrest => ?_⟩
  · have hS := SequentialTaskScheduler.handsOver dmt info
    have hI := SequentialTaskScheduler.lasts_start dmt info
    have hserves := hrun.works.serves hS.toExclusive hI rfl
    refine (hrest.done hS hI rfl hrun ((SequentialTaskScheduler.settles info).notStalled
      SequentialTaskScheduler.placement_of_reaches
      (hserves.prompt fun _ _ _ _ _ _ _ => trivial)) hn hpos).resolve_right ?_
    rintro ⟨hunfinished, -, hquiet⟩
    rcases sequential_runs hrun.works with hfinished | hbusy
    · cases hunfinished.symm.trans hfinished
    · exact hbusy hquiet
  · have hS := GreedyTaskScheduler.handsOver dmt info
    have hI := GreedyTaskScheduler.lasts_start dmt info
    have hserves := hrun.works.serves hS.toExclusive hI rfl
    exact hrest.done hS hI rfl hrun ((GreedyTaskScheduler.settles info).notStalled
      GreedyTaskScheduler.placement_of_reaches
      (hserves.prompt fun _ _ _ _ _ _ _ => trivial)) hn hpos

/-- The only process has returned from `Submit`, and the only leader has dumped its model. -/
theorem atRest_returned {σ M : Type} {S : TaskScheduler σ} {info : WorkerInfo} {ids : LocalIds info}
    {x : Transfers σ M} {instance_ : Instance} {leaders : ℕ → ℕ → Option (Instance × Stage M)}
    (hphase : (x.system.processes 0).phase = .outside)
    (hrunning : (x.system.processes 0).running = []) (houtbox : (x.system.processes 0).outbox = [])
    (hcommands : x.commands 0 = [])
    (hleaders : x.leaders = updateEntry leaders 0 0 (some (instance_, .dumped))) :
    AtRest S ids (fun id => id = 0) 1 x where
  stuck i hwithin hnot := by
    have hmove : ∀ j : Move, j.Within 1 → (∀ pid d, j ≠ .manage pid d) →
        System.step S ids x.system j = none := by
      intro j hwithin hnot
      cases j with
      | submit tasks => exact hwithin.elim
      | manage pid d => exact absurd rfl (hnot pid d)
      | enter pid =>
          obtain rfl := Nat.lt_one_iff.mp hwithin
          simp [System.step]
      | receive pid =>
          obtain rfl := Nat.lt_one_iff.mp hwithin
          simp [System.step, System.atProcess, Process.receive, hphase]
      | complete pid k =>
          obtain rfl := Nat.lt_one_iff.mp hwithin
          simp [System.step, System.atProcess, Process.complete, hrunning]
      | report pid k =>
          obtain rfl := Nat.lt_one_iff.mp hwithin
          simp [System.step, System.atProcess, Process.report, hphase]
      | remove pid =>
          obtain rfl := Nat.lt_one_iff.mp hwithin
          simp [System.step, System.atProcess, Process.remove, hphase]
    cases i with
    | system j =>
        simp [Transfers.step, hmove j hwithin fun pid d heq => hnot pid d (heq ▸ rfl)]
    | forward pid =>
        obtain rfl := Nat.lt_one_iff.mp hwithin
        simp [Transfers.step, Transfers.forward, hphase]
    | send pid =>
        obtain rfl := Nat.lt_one_iff.mp hwithin
        simp [Transfers.step, Transfers.send, hcommands]
    | load pid id stored =>
        obtain rfl := Nat.lt_one_iff.mp hwithin
        by_cases hid : id = 0
        · simp [Transfers.step, Transfers.load, hleaders, updateEntry_apply, hid]
        · simp [Transfers.step, hid]
    | dump pid id model =>
        obtain rfl := Nat.lt_one_iff.mp hwithin
        by_cases hid : id = 0
        · simp [Transfers.step, Transfers.dump, hleaders, updateEntry_apply, hid]
        · simp [Transfers.step, hid]
  handled pid hpid := by
    obtain rfl := Nat.lt_one_iff.mp hpid
    exact houtbox

/-- A task of two epochs hands its model over on the only process, and `Submit` returns. -/
def handedOverAndReturned : List (TransferMove ℕ) :=
  [.system (.submit [⟨0, 2, 0, 1, .basic, true⟩]), .system (.manage 0 .plain), .system (.receive 0),
    .load 0 0 5, .dump 0 0 6, .system (.complete 0 0), .system (.report 0 0), .system (.remove 0),
    .system (.manage 0 .plain), .system (.receive 0), .forward 0, .send 0, .load 0 0 5, .dump 0 0 7,
    .system (.complete 0 0), .system (.report 0 0), .system (.remove 0), .system (.manage 0 .plain),
    .system (.receive 0)]

theorem system_rests_done_handedOver : ∃ x : Transfers SequentialTaskScheduler ℕ,
    AtRest (SequentialTaskScheduler.scheduler (.oneEach 1)) (sameIds (.oneEach 1))
      (fun id => id = 0) 1 x ∧ (x.system.processes 0).phase = .outside := by
  obtain ⟨x, out, hrun, hrest⟩ : ∃ x out,
      run (Transfers.step (SequentialTaskScheduler.scheduler (.oneEach 1)) (sameIds (.oneEach 1))
        fun id => id = 0) (.start (.start (.oneEach 1)) 1) handedOverAndReturned = some (x, out) ∧
      AtRest (SequentialTaskScheduler.scheduler (.oneEach 1)) (sameIds (.oneEach 1))
        (fun id => id = 0) 1 x :=
    ⟨_, _, rfl, atRest_returned rfl rfl rfl rfl rfl⟩
  refine ⟨x, hrest, (system_rests_done ℕ _ _ 1 (le_refl 1) Nat.one_pos).1 out x
    ⟨handedOverAndReturned, ?_, hrun⟩ hrest⟩
  apply along_cons rfl trivial
  refine along_cons rfl ?_ ?_
  · rintro _ _ ⟨⟩
    refine ⟨trivial, fun task htask => ?_, fun task htask => ?_⟩
    · obtain rfl := List.mem_singleton.mp htask
      decide
    · obtain rfl := List.mem_singleton.mp htask
      exact fun _ => ⟨rfl, rfl⟩
  iterate 6 apply along_cons rfl trivial
  refine along_cons rfl (by rintro _ _ ⟨⟩) ?_
  iterate 8 apply along_cons rfl trivial
  refine along_cons rfl (by rintro _ _ ⟨⟩) ?_
  apply along_cons rfl trivial
  trivial

end FlexPS.Worker
