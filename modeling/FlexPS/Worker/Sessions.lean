import FlexPS.Worker.Agreement

/-!
# The cluster manager and the processes agree

The cluster manager and the workers keep account of the threads separately, and only messages about
finished threads connect the two.  In every state that the messages can lead to, both agree about the
threads up to what is under way.

## Main definitions

* `Session` — what the process that submits tasks waits for.
* `Consistent` — the invariant of the cluster manager and the processes.
* `Consistent.step`, `Works.consistent` — every step keeps it, and every run.
* `InAllRuns` — a property of the runs with the three schedulers that never rebook.
-/

namespace FlexPS.Worker

open Lib Scheduler

/-! ## Sessions -/

/-- `kClusterManagerInit`. -/
def isInit : ClusterMessage → Bool
  | .init _ => true
  | _ => false

/-- `kClusterManagerFinished`. -/
def WorkerMessage.isFinished : WorkerMessage → Bool
  | finished => true
  | _ => false

/-- The submissions that the cluster manager has not received, and those that it has said to be
finished. -/
def Process.pending (p : Process) : ℕ :=
  p.outbox.countP isInit + p.inbox.countP WorkerMessage.isFinished

/-- One submission is under way at a time, from the call of `Submit` until it returns; when it has not
reached the cluster manager or has been said to be finished, the scheduler is done. -/
structure Session (done : Bool) (p : Process) : Prop where
  once : p.pending ≤ 1
  outside : p.phase = .outside → p.pending = 0
  finished : p.phase = .outside ∨ p.pending = 1 → done = true

section Session

variable {done : Bool} {p p' : Process} {n : ℕ} {tasks : List Task} {info : WorkerInfo}
  {ids : LocalIds info} {pid : ℕ}

theorem session_start : Session true .start where
  once := Nat.zero_le 1
  outside _ := rfl
  finished _ := rfl

/-- What does not concern the submissions. -/
theorem Session.congr (h : Session done p) (hpending : p'.pending = p.pending)
    (hphase : p'.phase = .outside → p.phase = .outside) : Session done p' where
  once := hpending ▸ h.once
  outside heq := hpending ▸ h.outside (hphase heq)
  finished heq := h.finished (heq.imp hphase fun hone => hpending ▸ hone)

/-- Until the scheduler is done, the submission is being worked on. -/
theorem Session.working (h : Session done p) (hdone : done ≠ true) :
    p.phase ≠ .outside ∧ p.pending = 0 := by
  have hnot : ¬ (p.phase = .outside ∨ p.pending = 1) := fun heq => hdone (h.finished heq)
  have honce := h.once
  refine ⟨fun heq => hnot (.inl heq), ?_⟩
  have hne : p.pending ≠ 1 := fun heq => hnot (.inr heq)
  omega

/-- A submission is being worked on. -/
theorem session_of_working (hphase : p.phase ≠ .outside) (hpending : p.pending = 0) :
    Session done p where
  once := hpending ▸ Nat.zero_le 1
  outside heq := absurd heq hphase
  finished heq := by
    rcases heq with heq | heq
    · exact absurd heq hphase
    · omega

theorem Session.submit (h : Session done p) (hstep : p.submit tasks = some p') : Session done p' := by
  unfold Process.submit at hstep
  split at hstep
  · next hphase =>
      obtain rfl := Option.some.inj hstep
      have hpending : p.outbox.countP isInit + p.inbox.countP WorkerMessage.isFinished = 0 :=
        h.outside hphase
      have hone : (p.outbox ++ [ClusterMessage.init tasks]).countP isInit +
          p.inbox.countP WorkerMessage.isFinished = 1 := by
        rw [List.countP_append]
        simp only [List.countP_cons, List.countP_nil, isInit, if_true]
        omega
      exact ⟨hone.le, fun heq => Phase.noConfusion heq, fun _ => h.finished (.inl hphase)⟩
  · cases hstep

theorem Session.receive (h : Session done p) (hstep : p.receive ids pid = some p') :
    Session done p' := by
  unfold Process.receive at hstep
  split at hstep
  · next hphase =>
      split at hstep
      · cases hstep
      · next instance_ inbox hinbox =>
          obtain ⟨r, -, rfl⟩ := Option.map_eq_some_iff.mp hstep
          refine h.congr ?_ fun heq => heq
          simp only [Process.pending]
          rw [hinbox, List.countP_cons_of_neg Bool.false_ne_true]
      · next inbox hinbox =>
          obtain rfl := Option.some.inj hstep
          have hpending : p.outbox.countP isInit + inbox.countP WorkerMessage.isFinished + 1 =
              p.pending := by
            rw [Process.pending, hinbox, List.countP_cons_of_pos rfl, Nat.add_assoc]
          have honce := h.once
          have hzero : p.outbox.countP isInit + inbox.countP WorkerMessage.isFinished = 0 := by omega
          refine ⟨hzero.le.trans (Nat.zero_le 1), fun _ => hzero, fun _ => h.finished (.inr ?_)⟩
          omega
  · cases hstep

theorem Session.report (h : Session done p) (hstep : p.report ids pid n = some p') :
    Session done p' := by
  unfold Process.report at hstep
  split at hstep
  · obtain ⟨th, -, hstep⟩ := Option.bind_eq_some_iff.mp hstep
    obtain ⟨r, -, hstep⟩ := Option.bind_eq_some_iff.mp hstep
    obtain rfl := Option.some.inj hstep
    refine h.congr ?_ fun heq => Phase.noConfusion heq
    simp only [Process.pending]
    rw [List.countP_append]
    rfl
  · cases hstep

theorem Session.remove (h : Session done p) (hstep : p.remove = some p') : Session done p' := by
  unfold Process.remove at hstep
  split at hstep
  · simp only at hstep
    split at hstep
    · obtain ⟨r, -, rfl⟩ := Option.map_eq_some_iff.mp hstep
      exact h.congr rfl fun heq => Phase.noConfusion heq
    · obtain rfl := Option.some.inj hstep
      exact h.congr rfl fun heq => Phase.noConfusion heq
  · cases hstep

/-- **The cluster manager has extracted instances**, and has said so if all tasks have finished. -/
theorem session_extracted {σ : Type} (S : TaskScheduler σ) (s : σ) {instances : List SchedEvent}
    (hphase : p.phase ≠ .outside) (hpending : p.pending = 0) :
    Session (S.isFinished s) (p.deliver ((ClusterManager.extracted S s instances).filterMap workerMessage)) := by
  have hnone : ((instances.map ClusterEvent.scheduled).filterMap workerMessage).countP
      WorkerMessage.isFinished = 0 := by
    rw [List.countP_eq_zero]
    intro m hm
    obtain ⟨e, he, hm⟩ := List.mem_filterMap.mp hm
    obtain ⟨e, -, rfl⟩ := List.mem_map.mp he
    cases e with
    | issued instance_ =>
        obtain rfl := Option.some.inj hm
        exact Bool.false_ne_true
    | _ => cases hm
  have hcount : (p.deliver ((ClusterManager.extracted S s instances).filterMap
      workerMessage)).pending = if S.isFinished s then 1 else 0 := by
    simp only [Process.pending, Process.deliver] at hpending ⊢
    rw [ClusterManager.extracted, List.filterMap_append, List.countP_append, List.countP_append,
      hnone, ← Nat.add_assoc, hpending]
    split
    · rfl
    · rfl
  refine ⟨?_, fun heq => absurd heq hphase, fun heq => ?_⟩
  · rw [hcount]
    split
    · exact le_refl 1
    · exact Nat.zero_le 1
  · rcases heq with heq | heq
    · exact absurd heq hphase
    · by_contra hnot
      rw [hcount, if_neg hnot] at heq
      cases heq

end Session

/-! ## All parties -/

/-- The scheduler keeps its invariant, every process agrees with its history, and the process that
submits tasks waits for what is under way. -/
structure Consistent {σ : Type} {info : WorkerInfo} (S : TaskScheduler σ)
    (I : List SchedEvent → σ → Prop) (ids : LocalIds info) (out : List SchedEvent)
    (sys : System σ) : Prop where
  scheduler : I out sys.manager.taskScheduler
  agrees : ∀ pid, (sys.processes pid).Agrees ids pid out
  session : Session (S.isFinished sys.manager.taskScheduler) (sys.processes 0)

section Consistent

variable {σ : Type} {S : TaskScheduler σ} {info : WorkerInfo} {ids : LocalIds info}
  {accepts : List SchedEvent → σ → List Task → Prop} {I : List SchedEvent → σ → Prop}
  {out instances : List SchedEvent} {o : List ClusterEvent} {sys sys' : System σ}
  {c : ClusterManager σ} {s s' : σ} {d : Draw} {pid : ℕ} {p : Process} {q : ℕ → Process}
  {m : ClusterMessage} {outbox : List ClusterMessage} {i : Move}

theorem consistent_start (hI : I [] s) (hdone : S.isFinished s = true) (ids : LocalIds info)
    (countThreshold : ℕ) : Consistent S I ids [] (.start s countThreshold) where
  scheduler := hI
  agrees pid := Process.agrees_start ids pid
  session := hdone ▸ session_start

/-- Nobody shares a thread. -/
theorem Consistent.one (hS : Exclusive info S accepts I) (h : Consistent S I ids out sys) (tid : ℕ) :
    (holders out tid).length ≤ 1 := by
  obtain ⟨a, m, haccounts⟩ := hS.accounts h.scheduler
  exact haccounts.books.one tid

/-- A step of one process. -/
theorem Consistent.update (h : Consistent S I ids out sys) (hagrees : p.Agrees ids pid out)
    (hsession : pid = 0 → Session (S.isFinished sys.manager.taskScheduler) p) :
    Consistent S I ids out { sys with processes := Function.update sys.processes pid p } where
  scheduler := h.scheduler
  agrees pid' := by
    dsimp only
    rw [Function.update_apply]
    split
    · next heq => exact heq ▸ hagrees
    · exact h.agrees pid'
  session := by
    dsimp only
    rw [Function.update_apply]
    split
    · next heq => exact hsession heq.symm
    · exact h.session

/-- **The cluster manager has extracted instances**, and has sent them to all processes. -/
theorem consistent_extracted (hS : Exclusive info S accepts I) (hI : I out s)
    (hagrees : ∀ pid, (q pid).Agrees ids pid out) (hphase : (q 0).phase ≠ .outside)
    (hpending : (q 0).pending = 0) (hextract : S.extractInstances d s = some (s', instances))
    (t : SchedulerTrigger) :
    Consistent S I ids (out ++ instances) ⟨⟨s', t⟩, fun pid =>
      (q pid).deliver ((ClusterManager.extracted S s' instances).filterMap workerMessage)⟩ where
  scheduler := hS.extracted hI hextract
  agrees pid := (hagrees pid).extracted S s' (hS.fresh (hS.extracted hI hextract))
    (hS.events hI hextract)
  session := session_extracted S s' hphase hpending

/-- **The cluster manager receives tasks.** -/
theorem Consistent.init (hS : Exclusive info S accepts I) (h : Consistent S I ids out sys)
    {tasks : List Task} (houtbox : (sys.processes 0).outbox = .init tasks :: outbox)
    (haccepts : accepts out sys.manager.taskScheduler tasks)
    (hinit : S.initTasks sys.manager.taskScheduler tasks = some s)
    (hq : q = Function.update sys.processes 0 { sys.processes 0 with outbox := outbox }) :
    I (out ++ [.submitted tasks]) s ∧ (∀ pid, (q pid).Agrees ids pid (out ++ [.submitted tasks])) ∧
      (q 0).phase ≠ .outside ∧ (q 0).pending = 0 := by
  subst hq
  have hpending : outbox.countP isInit +
      (sys.processes 0).inbox.countP WorkerMessage.isFinished + 1 = (sys.processes 0).pending := by
    rw [Process.pending, houtbox, List.countP_cons_of_pos rfl]
    omega
  have honce := h.session.once
  refine ⟨hS.submitted h.scheduler (h.session.finished (.inr (by omega))) haccepts hinit,
    fun pid => ?_, ?_, ?_⟩
  · rw [Function.update_apply]
    split
    · next heq =>
        subst heq
        exact ((h.agrees 0).taken houtbox rfl).snoc_of_none rfl
    · exact (h.agrees pid).snoc_of_none rfl
  · rw [Function.update_self]
    intro hphase
    have hzero := h.session.outside hphase
    omega
  · rw [Function.update_self, Process.pending]
    simp only
    omega

/-- **The cluster manager is told** that a thread has finished. -/
theorem Consistent.finish (hS : Exclusive info S accepts I) (h : Consistent S I ids out sys)
    {id tid time : ℕ} (houtbox : (sys.processes pid).outbox = .threadFinished id tid time :: outbox)
    (hfinish : S.finishThread sys.manager.taskScheduler id tid time = some s)
    (hq : q = Function.update sys.processes pid { sys.processes pid with outbox := outbox }) :
    I (out ++ [.finished id tid]) s ∧ (∀ pid, (q pid).Agrees ids pid (out ++ [.finished id tid])) ∧
      (q 0).phase ≠ .outside ∧ (q 0).pending = 0 := by
  subst hq
  obtain ⟨hpid, hid⟩ := (h.agrees pid).mem_holders houtbox
  obtain ⟨hphase, hpending⟩ := h.session.working fun hdone => hS.idle h.scheduler hdone id ⟨tid, hid⟩
  refine ⟨hS.finished h.scheduler hid hfinish, fun pid' => ?_, ?_, ?_⟩
  · rw [Function.update_apply]
    split
    · next heq =>
        subst heq
        exact (h.agrees pid').finish houtbox
    · next hne => exact (h.agrees pid').finish_other fun heq => hne (heq.symm.trans hpid)
  · rw [Function.update_apply]
    split
    · next heq =>
        subst heq
        exact hphase
    · exact hphase
  · rw [Function.update_apply]
    split
    · next heq =>
        subst heq
        rw [Process.pending, houtbox, List.countP_cons_of_neg Bool.false_ne_true] at hpending
        exact hpending
    · exact hpending

theorem workerMessage_eq_none {e : SchedEvent} (he : ∀ instance_, e ≠ .issued instance_) :
    workerMessage (.scheduled e) = none := by
  cases e with
  | issued instance_ => exact absurd rfl (he instance_)
  | _ => rfl

/-- **The message is handled**, and then instances may be extracted. -/
theorem Consistent.handle (hS : Exclusive info S accepts I) (h : Consistent S I ids out sys)
    (houtbox : (sys.processes pid).outbox = m :: outbox)
    (hfair : ∀ tasks outbox, (sys.processes pid).outbox = .init tasks :: outbox →
      accepts out sys.manager.taskScheduler tasks)
    (hserve : ClusterManager.serve S sys.manager (m, d) = some (c, o))
    (hq : q = Function.update sys.processes pid { sys.processes pid with outbox := outbox }) :
    ∃ e s₁, (∀ instance_, e ≠ .issued instance_) ∧ I (out ++ [e]) s₁ ∧
      (∀ pid, (q pid).Agrees ids pid (out ++ [e])) ∧ (q 0).phase ≠ .outside ∧ (q 0).pending = 0 ∧
      ((∃ instances, S.extractInstances d s₁ = some (c.taskScheduler, instances) ∧
        o = .scheduled e :: ClusterManager.extracted S c.taskScheduler instances) ∨
      (c.taskScheduler = s₁ ∧ o = [.scheduled e])) := by
  obtain ⟨i, hcall, hfirst⟩ : ∃ i, m.call = some i ∧ ∀ {s₁ e},
      schedStep S sys.manager.taskScheduler i = some (s₁, [e]) →
      (∀ instance_, e ≠ .issued instance_) ∧ I (out ++ [e]) s₁ ∧
        (∀ pid, (q pid).Agrees ids pid (out ++ [e])) ∧ (q 0).phase ≠ .outside ∧
        (q 0).pending = 0 := by
    rcases (h.agrees pid).sends m (houtbox ▸ List.mem_cons_self ..) with
      ⟨id, tid, time, rfl⟩ | ⟨rfl, tasks, rfl⟩
    · refine ⟨_, rfl, fun {s₁ e} hstep => ?_⟩
      obtain ⟨s₂, hfinish, heq⟩ := Option.map_eq_some_iff.mp hstep
      obtain ⟨rfl, he⟩ := Prod.mk.inj heq
      obtain rfl := (List.cons.inj he).1
      exact ⟨fun _ heq => SchedEvent.noConfusion heq, h.finish hS houtbox hfinish hq⟩
    · refine ⟨_, rfl, fun {s₁ e} hstep => ?_⟩
      obtain ⟨s₂, hinit, heq⟩ := Option.map_eq_some_iff.mp hstep
      obtain ⟨rfl, he⟩ := Prod.mk.inj heq
      obtain rfl := (List.cons.inj he).1
      exact ⟨fun _ heq => SchedEvent.noConfusion heq,
        h.init hS houtbox (hfair tasks outbox houtbox) hinit hq⟩
  obtain ⟨s₁, e, hstep, hcases⟩ := ClusterManager.serve_cases hcall hserve
  obtain ⟨hnot, hI, hagrees, hphase, hpending⟩ := hfirst hstep
  refine ⟨e, s₁, hnot, hI, hagrees, hphase, hpending, ?_⟩
  rcases hcases with ⟨instances, hextract, -, heq⟩ | ⟨id, tid, time, -, -, hs, heq⟩
  · exact .inl ⟨instances, hextract, heq⟩
  · exact .inr ⟨hs, heq⟩

/-- **A round of the loop** of the cluster manager. -/
theorem Consistent.serve (hS : Exclusive info S accepts I) (h : Consistent S I ids out sys)
    (houtbox : (sys.processes pid).outbox = m :: outbox)
    (hfair : ∀ tasks outbox, (sys.processes pid).outbox = .init tasks :: outbox →
      accepts out sys.manager.taskScheduler tasks)
    (hserve : ClusterManager.serve S sys.manager (m, d) = some (c, o))
    (hq : q = Function.update sys.processes pid { sys.processes pid with outbox := outbox }) :
    Consistent S I ids (out ++ scheduled o)
      ⟨c, fun pid => (q pid).deliver (o.filterMap workerMessage)⟩ := by
  obtain ⟨e, s₁, hnot, hI, hagrees, hphase, hpending, hcases⟩ :=
    h.handle hS houtbox hfair hserve hq
  have hnone := workerMessage_eq_none hnot
  rcases hcases with ⟨instances, hextract, rfl⟩ | ⟨hs, rfl⟩
  · have hconsistent := consistent_extracted hS hI hagrees hphase hpending hextract c.schedulerTrigger
    have hscheduled : scheduled (.scheduled e :: ClusterManager.extracted S c.taskScheduler
        instances) = e :: instances :=
      congrArg (e :: ·) (scheduled_extracted S c.taskScheduler instances)
    rw [hscheduled, List.append_cons, List.filterMap_cons, hnone]
    exact hconsistent
  · have hnil : [ClusterEvent.scheduled e].filterMap workerMessage = [] := by
      rw [List.filterMap_cons, hnone, List.filterMap_nil]
    rw [hnil]
    simp only [Process.deliver_nil]
    exact ⟨hs ▸ hI, hagrees, session_of_working hphase hpending⟩

/-- **A step** of the cluster manager or of a process. -/
theorem Consistent.step (hS : Exclusive info S accepts I) (h : Consistent S I ids out sys)
    (hfair : i.Fair accepts out sys) (hstep : System.step S ids sys i = some (sys', o)) :
    Consistent S I ids (out ++ scheduled o) sys' := by
  have hprocess : ∀ {pid} {p : Option Process},
      sys.atProcess pid p = some (sys', o) →
      (∀ p', p = some p' → p'.Agrees ids pid out ∧
        (pid = 0 → Session (S.isFinished sys.manager.taskScheduler) p')) →
      Consistent S I ids (out ++ scheduled o) sys' := by
    intro pid p hat hp
    obtain ⟨p', hp', heq⟩ := Option.map_eq_some_iff.mp hat
    obtain ⟨rfl, rfl⟩ := Prod.mk.inj heq
    have hnil : scheduled [] = [] := rfl
    rw [hnil, List.append_nil]
    exact h.update (hp p' hp').1 (hp p' hp').2
  cases i with
  | submit tasks =>
      exact hprocess hstep fun p' hp' =>
        ⟨(h.agrees 0).submit hp', fun _ => h.session.submit hp'⟩
  | enter pid =>
      simp only [System.step] at hstep
      split at hstep
      · cases hstep
      · next hpid =>
          exact hprocess hstep fun p' hp' =>
            ⟨(h.agrees pid).enter hp', fun heq => absurd heq hpid⟩
  | receive pid =>
      refine hprocess hstep fun p' hp' => ⟨(h.agrees pid).receive (h.one hS) hp', ?_⟩
      rintro rfl
      exact h.session.receive hp'
  | complete pid n =>
      refine hprocess hstep fun p' hp' => ⟨(h.agrees pid).complete hp', ?_⟩
      rintro rfl
      obtain ⟨th, -, rfl⟩ := Option.map_eq_some_iff.mp hp'
      exact h.session.congr rfl fun heq => heq
  | report pid n =>
      refine hprocess hstep fun p' hp' => ⟨(h.agrees pid).report hp', ?_⟩
      rintro rfl
      exact h.session.report hp'
  | remove pid =>
      refine hprocess hstep fun p' hp' => ⟨(h.agrees pid).remove hp', ?_⟩
      rintro rfl
      exact h.session.remove hp'
  | manage pid d =>
      simp only [System.step] at hstep
      split at hstep
      · cases hstep
      · next m outbox houtbox =>
          obtain ⟨⟨c, o₁⟩, hserve, hstep⟩ := Option.bind_eq_some_iff.mp hstep
          obtain ⟨rfl, rfl⟩ := Prod.mk.inj (Option.some.inj hstep)
          exact h.serve hS houtbox hfair hserve rfl

/-- **Every run** keeps all parties consistent. -/
theorem Works.consistent (hS : Exclusive info S accepts I) (hI : I [] s)
    (hdone : S.isFinished s = true) {countThreshold : ℕ}
    {out : List ClusterEvent} (h : Works S ids accepts s countThreshold out sys) :
    Consistent S I ids (scheduled out) sys := by
  obtain ⟨moves, halong, hrun⟩ := h
  have hstart : Consistent S I ids (scheduled []) (.start s countThreshold) :=
    consistent_start hI hdone ids countThreshold
  refine run_along (I := fun out sys => Consistent S I ids (scheduled out) sys) ?_ hstart halong hrun
  intro out sys i sys' o hsys hfair hstep
  rw [scheduled_append]
  exact hsys.step hS hfair hstep

end Consistent

/-! ## The three schedulers -/

/-- A property of everything that the cluster manager and the workers can do, with the sequential
scheduler; with the greedy one, when the tasks of a submission have different ids; and with the
priority scheduler, when the tasks are indexed by their ids. -/
def InAllRuns {info : WorkerInfo} (ids : LocalIds info) (countThreshold : ℕ)
    (P : ∀ {σ : Type}, TaskScheduler σ → List ClusterEvent → System σ → Prop) : Prop :=
  (∀ out sys, Works (SequentialTaskScheduler.scheduler info) ids AnyTasks (.start info)
    countThreshold out sys → P (SequentialTaskScheduler.scheduler info) out sys) ∧
  (∀ out sys, Works (GreedyTaskScheduler.scheduler info) ids DistinctTasks (.start info)
    countThreshold out sys → P (GreedyTaskScheduler.scheduler info) out sys) ∧
  (∀ out sys, Works (PriorityTaskScheduler.scheduler info) ids IndexedTasks (.start info)
    countThreshold out sys → P (PriorityTaskScheduler.scheduler info) out sys)

/-- **The rule**: what holds of all parties when they are consistent. -/
theorem inAllRuns_of_consistent {info : WorkerInfo} (ids : LocalIds info) (countThreshold : ℕ)
    {P : ∀ {σ : Type}, TaskScheduler σ → List ClusterEvent → System σ → Prop}
    (h : ∀ {σ : Type} {S : TaskScheduler σ} {accepts : List SchedEvent → σ → List Task → Prop}
      {I : List SchedEvent → σ → Prop} {out : List ClusterEvent} {sys : System σ},
      Exclusive info S accepts I → Consistent S I ids (scheduled out) sys → P S out sys) :
    InAllRuns ids countThreshold P := by
  refine ⟨fun out sys hworks => ?_, fun out sys hworks => ?_, fun out sys hworks => ?_⟩
  · have hS := SequentialTaskScheduler.exclusive info
    exact h hS (hworks.consistent hS
      ⟨SequentialTaskScheduler.inv_start info, throughout_nil OneAtATime⟩ rfl)
  · have hS := GreedyTaskScheduler.exclusive info
    exact h hS (hworks.consistent hS
      ⟨GreedyTaskScheduler.inv_start info, throughout_nil OneAtATime⟩ rfl)
  · have hS := PriorityTaskScheduler.exclusive info
    exact h hS (hworks.consistent hS
      ⟨⟨[], PriorityTaskScheduler.inv_start info⟩, throughout_nil OneAtATime⟩ rfl)

end FlexPS.Worker
