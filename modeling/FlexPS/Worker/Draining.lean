import FlexPS.Lib.Progress
import FlexPS.Scheduler.Exhausting
import FlexPS.Worker.HandOver
import FlexPS.Worker.Reporting
import Mathlib.Algebra.BigOperators.Ring.Finset
import Mathlib.Data.Set.Card

/-!
# Everything that is under way comes to its end

Every step of a process, of a leader and of the cluster manager leaves less to do until the next
submission: what the cluster manager sends in answer to a message is paid for by the epochs that are
left.

## Main definitions

* `Process.toDo`, `System.toDo` — what is left to do for a process, and for all parties.
* `Consistent.toDo_worker`, `Consistent.toDo_manage` — the steps leave less.
* `Transfers.underWay` — what is left to do for the models.
* `Handing.toDo_step` — every step leaves less.
* `system_comes_to_rest` — the statement for three schedulers.
-/

namespace FlexPS.Worker

open Lib Scheduler

/-! ## What is left to do -/

/-- What the cluster manager will do with a message: for tasks, what their epochs lead to. -/
def submission : ClusterMessage → ℕ
  | .init tasks => submittedEpochs tasks + 1
  | _ => 0

/-- What is left to do for a process.  A step of its worker may start a leader, which loads and dumps
a model; a thread of it leads to a message to the cluster manager, which may be answered. -/
def Process.toDo {info : WorkerInfo} (ids : LocalIds info) (w c pid : ℕ) (p : Process) : ℕ :=
  3 * p.work pid + w * (p.threads ids pid).length + c * (p.outbox.map submission).sum

/-- What a message that is answered by the exit signal costs. -/
def exitCost (n : ℕ) : ℕ := 6 * n + 1

/-- What an instance costs: it is sent to all processes, its threads run, and the model of its task
may be transferred. -/
def issueCost (info : WorkerInfo) (n : ℕ) : ℕ :=
  (12 + exitCost n) * info.globalTids.length + 6 * n + 2

/-- What is left to do for the first `n` processes and the scheduler. -/
def System.toDo {σ : Type} {info : WorkerInfo} (ids : LocalIds info)
    (left : List SchedEvent → σ → ℕ) (n : ℕ) (out : List SchedEvent) (sys : System σ) : ℕ :=
  (∑ pid ∈ Finset.range n, (sys.processes pid).toDo ids (exitCost n) (issueCost info n) pid) +
    issueCost info n * left out sys.manager.taskScheduler

/-! ## The messages of the cluster manager -/

/-- The exit signals that have been sent. -/
def exits (o : List ClusterEvent) : ℕ :=
  o.countP fun
    | .exitSignal => true
    | _ => false

section Messages

variable {info : WorkerInfo} {instance_ : Instance} {o : List ClusterEvent}

/-- An instance has no more threads than the cluster. -/
theorem WellPlaced.sum_localTids_le (h : WellPlaced info instance_) (n : ℕ) :
    ∑ pid ∈ Finset.range n, (instance_.localTids pid).length ≤ info.globalTids.length := by
  have hsubset : instance_.tids ⊆ info.globalTids := by
    intro tid htid
    obtain ⟨th, hth, rfl⟩ := List.mem_map.mp htid
    exact (h.2 th hth).2
  calc ∑ pid ∈ Finset.range n, (instance_.localTids pid).length
      = ∑ pid ∈ Finset.range n, (instance_.threads.filter (·.1 = pid)).length :=
        Finset.sum_congr rfl fun pid _ => by rw [Instance.localTids_eq, List.length_map]
    _ ≤ instance_.threads.length := sum_length_filter_le _ Prod.fst _
    _ = instance_.tids.length := (List.length_map _).symm
    _ ≤ info.globalTids.length := (h.1.subperm hsubset).length_le

/-- What all processes are sent: the instances book their threads. -/
theorem sum_bookings_le {messages : List WorkerMessage}
    (hplaced : ∀ instance_, .task instance_ ∈ messages → WellPlaced info instance_) (n : ℕ) :
    ∑ pid ∈ Finset.range n, (messages.flatMap (WorkerMessage.bookings pid)).length ≤
      info.globalTids.length * messages.countP fun m => !m.isFinished := by
  induction messages with
  | nil => simp
  | cons m messages ih =>
      have hm : ∀ instance_, m = .task instance_ → WellPlaced info instance_ :=
        fun instance_ heq => hplaced instance_ (heq ▸ List.mem_cons_self ..)
      have hrest := ih fun instance_ hmem => hplaced instance_ (List.mem_cons_of_mem _ hmem)
      have hcons : ∀ pid, ((m :: messages).flatMap (WorkerMessage.bookings pid)).length =
          (m.bookings pid).length + (messages.flatMap (WorkerMessage.bookings pid)).length := by
        intro pid
        rw [List.flatMap_cons, List.length_append]
      rw [Finset.sum_congr rfl fun pid _ => hcons pid, Finset.sum_add_distrib]
      cases m with
      | task instance_ =>
          have hbookings : ∀ pid, ((WorkerMessage.task instance_).bookings pid).length =
              (instance_.localTids pid).length := fun pid => List.length_map _
          have hthreads := (hm instance_ rfl).sum_localTids_le n
          rw [Finset.sum_congr rfl fun pid _ => hbookings pid, List.countP_cons_of_pos rfl, mul_add,
            mul_one, add_comm]
          exact Nat.add_le_add hrest hthreads
      | finished =>
          have hnone : ∑ pid ∈ Finset.range n, (WorkerMessage.finished.bookings pid).length = 0 :=
            Finset.sum_eq_zero fun _ _ => rfl
          rw [hnone, zero_add, List.countP_cons_of_neg Bool.false_ne_true]
          exact hrest

/-- The messages are instances and exit signals. -/
theorem countP_messages (o : List ClusterEvent) :
    (o.filterMap workerMessage).countP (fun m => !m.isFinished) = issuedCount (scheduled o) ∧
      (o.filterMap workerMessage).countP WorkerMessage.isFinished = exits o := by
  induction o with
  | nil => exact ⟨rfl, rfl⟩
  | cons e o ih =>
      obtain ⟨hissued, hexits⟩ := ih
      rcases e with (_ | instance_ | _ | _ | _) | _
      · exact ⟨hissued, hexits⟩
      · refine ⟨?_, hexits⟩
        have hmessage : ((.scheduled (.issued instance_) :: o).filterMap workerMessage).countP
            (fun m => !m.isFinished) =
            ((o.filterMap workerMessage).countP fun m => !m.isFinished) + 1 :=
          List.countP_cons_of_pos rfl
        have hevent : issuedCount (scheduled (.scheduled (.issued instance_) :: o)) =
            issuedCount (scheduled o) + 1 := List.countP_cons_of_pos rfl
        rw [hmessage, hevent, hissued]
      · exact ⟨hissued, hexits⟩
      · exact ⟨hissued, hexits⟩
      · exact ⟨hissued, hexits⟩
      · refine ⟨hissued, ?_⟩
        have hmessage : ((ClusterEvent.exitSignal :: o).filterMap workerMessage).countP
            WorkerMessage.isFinished =
            (o.filterMap workerMessage).countP WorkerMessage.isFinished + 1 :=
          List.countP_cons_of_pos rfl
        have hevent : exits (.exitSignal :: o) = exits o + 1 := List.countP_cons_of_pos rfl
        rw [hmessage, hevent, hexits]

end Messages

/-! ## The steps of the processes and of the cluster manager -/

section Steps

variable {σ : Type} {S : TaskScheduler σ} {info : WorkerInfo} {ids : LocalIds info}
  {accepts : List SchedEvent → σ → List Task → Prop} {I : List SchedEvent → σ → Prop}
  {left : List SchedEvent → σ → ℕ} {out : List SchedEvent} {o : List ClusterEvent}
  {sys sys' : System σ} {c : ClusterManager σ} {d : Draw} {m : ClusterMessage}
  {outbox : List ClusterMessage} {p : Process} {i : Move} {pid n : ℕ}

theorem toDo_deliver (ids : LocalIds info) (w c pid : ℕ) (p : Process)
    (messages : List WorkerMessage) : (p.deliver messages).toDo ids w c pid = p.toDo ids w c pid +
      ((12 + w) * (messages.flatMap (WorkerMessage.bookings pid)).length + 6 * messages.length) := by
  have hwork : (p.deliver messages).work pid = p.work pid +
      (4 * (messages.flatMap (WorkerMessage.bookings pid)).length + 2 * messages.length) := by
    change 4 * ((p.inbox ++ messages).flatMap (WorkerMessage.bookings pid)).length +
      2 * (p.inbox ++ messages).length + 3 * p.running.length + 2 * p.threadFinished.length +
        (if p.phase = .waiting then 0 else 1) = _
    rw [List.flatMap_append, List.length_append, List.length_append, Process.work]
    ring
  have hthreads : ((p.deliver messages).threads ids pid).length = (p.threads ids pid).length +
      (messages.flatMap (WorkerMessage.bookings pid)).length := by
    simp only [Process.threads, Process.used, Process.deliver, List.flatMap_append,
      List.length_append]
    omega
  rw [Process.toDo, Process.toDo, hwork, hthreads, Process.deliver]
  ring

/-- **A worker** is silent, and sends nothing but finished threads. -/
theorem worker_cases (hworker : i.worker = some pid)
    (hstep : System.step S ids sys i = some (sys', o)) : o = [] ∧ sys'.manager = sys.manager ∧
      ((sys'.processes pid).outbox.map submission).sum =
        ((sys.processes pid).outbox.map submission).sum := by
  have hprocess : ∀ {q : Option Process}, sys.atProcess pid q = some (sys', o) →
      (∀ p', q = some p' → (p'.outbox.map submission).sum =
        ((sys.processes pid).outbox.map submission).sum) → o = [] ∧ sys'.manager = sys.manager ∧
      ((sys'.processes pid).outbox.map submission).sum =
        ((sys.processes pid).outbox.map submission).sum := by
    intro q hat hq
    obtain ⟨p', hp', heq⟩ := Option.map_eq_some_iff.mp hat
    obtain ⟨rfl, rfl⟩ := Prod.mk.inj heq
    refine ⟨rfl, rfl, ?_⟩
    dsimp only
    rw [Function.update_self]
    exact hq p' hp'
  cases i with
  | submit tasks => cases hworker
  | enter pid' =>
      obtain rfl := Option.some.inj hworker
      simp only [System.step] at hstep
      split at hstep
      · cases hstep
      · refine hprocess hstep fun p' hp' => ?_
        unfold Process.enter at hp'
        split at hp'
        · obtain rfl := Option.some.inj hp'
          rfl
        · cases hp'
  | receive pid' =>
      obtain rfl := Option.some.inj hworker
      refine hprocess hstep fun p' hp' => ?_
      unfold Process.receive at hp'
      split at hp'
      · split at hp'
        · cases hp'
        · obtain ⟨r, -, rfl⟩ := Option.map_eq_some_iff.mp hp'
          rfl
        · obtain rfl := Option.some.inj hp'
          rfl
      · cases hp'
  | complete pid' k =>
      obtain rfl := Option.some.inj hworker
      refine hprocess hstep fun p' hp' => ?_
      obtain ⟨th, -, rfl⟩ := Option.map_eq_some_iff.mp hp'
      rfl
  | report pid' k =>
      obtain rfl := Option.some.inj hworker
      refine hprocess hstep fun p' hp' => ?_
      unfold Process.report at hp'
      split at hp'
      · obtain ⟨th, -, hp'⟩ := Option.bind_eq_some_iff.mp hp'
        obtain ⟨r, -, hp'⟩ := Option.bind_eq_some_iff.mp hp'
        obtain rfl := Option.some.inj hp'
        rw [List.map_append, List.sum_append]
        rfl
      · cases hp'
  | remove pid' =>
      obtain rfl := Option.some.inj hworker
      refine hprocess hstep fun p' hp' => ?_
      unfold Process.remove at hp'
      split at hp'
      · simp only at hp'
        split at hp'
        · obtain ⟨r, -, rfl⟩ := Option.map_eq_some_iff.mp hp'
          rfl
        · obtain rfl := Option.some.inj hp'
          rfl
      · cases hp'
  | manage pid' d => cases hworker

/-- A worker does not move threads from or to the cluster manager. -/
theorem length_threads {p p' : Process} (h : p.Agrees ids pid out) (h' : p'.Agrees ids pid out) :
    (p'.threads ids pid).length = (p.threads ids pid).length := by
  refine List.Perm.length_eq (List.perm_iff_count.mpr ?_)
  rintro ⟨id, tid⟩
  exact (h'.booked.count id tid).trans (h.booked.count id tid).symm

/-- **A step of a worker** leaves less to do. -/
theorem Consistent.toDo_worker (left : List SchedEvent → σ → ℕ) (hS : Exclusive info S accepts I)
    (h : Consistent S I ids out sys) (hworker : i.worker = some pid) (hpid : pid < n)
    (hstep : System.step S ids sys i = some (sys', o)) :
    sys'.toDo ids left n out + 3 ≤ sys.toDo ids left n out := by
  obtain ⟨hwork, hother⟩ := work_step hworker hstep
  obtain ⟨rfl, hmanager, hsubmissions⟩ := worker_cases hworker hstep
  have hfair : i.Fair accepts out sys := by
    cases i with
    | manage _ _ => cases hworker
    | _ => trivial
  have h' := h.step hS hfair hstep
  rw [show out ++ scheduled [] = out from List.append_nil out] at h'
  have hthreads := length_threads (h.agrees pid) (h'.agrees pid)
  have hsum : ∑ pid ∈ Finset.range n,
      (sys'.processes pid).toDo ids (exitCost n) (issueCost info n) pid + 3 ≤
      ∑ pid ∈ Finset.range n,
        (sys.processes pid).toDo ids (exitCost n) (issueCost info n) pid + 0 := by
    refine sum_add_le_of_ne (Finset.mem_range.mpr hpid) ?_ fun pid' hne => ?_
    · rw [Process.toDo, Process.toDo, hthreads, hsubmissions]
      omega
    · rw [hother pid' hne]
  rw [System.toDo, System.toDo, hmanager]
  omega

/-- The scheduler is done when a submission arrives. -/
theorem Session.done_of_init {done : Bool} {tasks : List Task} (h : Session done p)
    (houtbox : p.outbox = .init tasks :: outbox) : done = true := by
  have hpos : 0 < p.outbox.countP isInit :=
    List.countP_pos_iff.mpr ⟨_, houtbox ▸ List.mem_cons_self .., rfl⟩
  have honce := h.once
  have hpending : p.pending = p.outbox.countP isInit + p.inbox.countP WorkerMessage.isFinished := rfl
  exact h.finished (.inr (by omega))

theorem exits_extracted (s : σ) (instances : List SchedEvent) :
    exits (ClusterManager.extracted S s instances) ≤ 1 := by
  have hnone : exits (instances.map ClusterEvent.scheduled) = 0 := by
    refine List.countP_eq_zero.mpr fun e he => ?_
    obtain ⟨e, -, rfl⟩ := List.mem_map.mp he
    exact Bool.false_ne_true
  rw [ClusterManager.extracted, exits, List.countP_append]
  refine (Nat.add_le_add_right hnone.le _).trans ?_
  split
  · exact le_refl 1
  · exact Nat.zero_le 1

/-- **The answer to a message** is paid for by what the message brings, or by the epochs that are
left. -/
theorem answer_paid (hX : Exhausts S accepts I left) {e : SchedEvent} {s₁ : σ} {bound : ℕ}
    (hnot : ∀ instance_, e ≠ .issued instance_) (hI : I (out ++ [e]) s₁)
    (hleft : left (out ++ [e]) s₁ ≤ bound)
    {t : SchedulerTrigger}
    (hcases : (∃ instances, S.extractInstances d s₁ = some (c.taskScheduler, instances) ∧
        .refused ∉ instances ∧
        o = .scheduled e :: ClusterManager.extracted S c.taskScheduler instances) ∨
      (∃ id tid time, m = .threadFinished id tid time ∧ t.counter + 1 ≠ t.countThreshold ∧
        c.taskScheduler = s₁ ∧ o = [.scheduled e])) :
    exits o ≤ 1 ∧ left (out ++ scheduled o) c.taskScheduler + issuedCount (scheduled o) ≤ bound := by
  have hone : issuedCount [e] = 0 := by
    cases e with
    | issued instance_ => exact absurd rfl (hnot instance_)
    | _ => rfl
  rcases hcases with ⟨instances, hextract, -, rfl⟩ | ⟨_, _, _, -, -, hs, rfl⟩
  · have hscheduled : scheduled (.scheduled e :: ClusterManager.extracted S c.taskScheduler
        instances) = [e] ++ instances :=
      congrArg (e :: ·) (scheduled_extracted S c.taskScheduler instances)
    have hless := hX.extracted hI hextract
    rw [issuedCount_append] at hless
    refine ⟨exits_extracted c.taskScheduler instances, ?_⟩
    rw [hscheduled, issuedCount_append, hone, ← List.append_assoc]
    omega
  · refine ⟨Nat.zero_le 1, ?_⟩
    rw [hs]
    exact (Nat.add_le_add_left hone.le _).trans hleft

/-- **A message leaves its process**, and the cluster manager answers it. -/
theorem Consistent.toDo_handle (hS : Exclusive info S accepts I) (hX : Exhausts S accepts I left)
    (h : Consistent S I ids out sys) (houtbox : (sys.processes pid).outbox = m :: outbox)
    (hfair : ∀ tasks outbox, (sys.processes pid).outbox = .init tasks :: outbox →
      accepts out sys.manager.taskScheduler tasks)
    (hserve : ClusterManager.serve S sys.manager (m, d) = some (c, o)) {w k : ℕ} (hw : w ≤ k) :
    exits o ≤ 1 ∧ ({ sys.processes pid with outbox := outbox } : Process).toDo ids w k pid + w +
        k * (left (out ++ scheduled o) c.taskScheduler + issuedCount (scheduled o)) ≤
      (sys.processes pid).toDo ids w k pid + k * left out sys.manager.taskScheduler := by
  have hwork : ({ sys.processes pid with outbox := outbox } : Process).work pid =
      (sys.processes pid).work pid := rfl
  rcases (h.agrees pid).sends m (houtbox ▸ List.mem_cons_self ..) with
    ⟨id, tid, time, rfl⟩ | ⟨rfl, tasks, rfl⟩
  · obtain ⟨s₁, e, hstep, hcases⟩ := ClusterManager.serve_cases rfl hserve
    obtain ⟨s₂, hfinish, heq⟩ := Option.map_eq_some_iff.mp hstep
    obtain ⟨rfl, he⟩ := Prod.mk.inj heq
    obtain rfl := (List.cons.inj he).1
    have hid := ((h.agrees pid).mem_holders houtbox).2
    obtain ⟨hexits, hless⟩ := answer_paid hX (fun _ heq => SchedEvent.noConfusion heq)
      (hS.finished h.scheduler hid hfinish) (hX.finished h.scheduler hid hfinish) hcases
    refine ⟨hexits, ?_⟩
    have hthreads : ((sys.processes pid).threads ids pid).length =
        (({ sys.processes pid with outbox := outbox } : Process).threads ids pid).length + 1 := by
      simp only [Process.threads, Process.used, houtbox, List.filterMap_cons, reported,
        List.length_append, List.length_cons]
      omega
    have hmul := Nat.mul_le_mul_left k hless
    simp only [Process.toDo, hwork, hthreads, houtbox, List.map_cons, List.sum_cons, submission,
      mul_add, mul_one, zero_add] at hmul ⊢
    omega
  · obtain ⟨s₁, e, hstep, hcases⟩ := ClusterManager.serve_cases rfl hserve
    obtain ⟨s₂, hinit, heq⟩ := Option.map_eq_some_iff.mp hstep
    obtain ⟨rfl, he⟩ := Prod.mk.inj heq
    obtain rfl := (List.cons.inj he).1
    have hdone := h.session.done_of_init houtbox
    have haccepts := hfair tasks outbox houtbox
    obtain ⟨hexits, hless⟩ := answer_paid hX (fun _ heq => SchedEvent.noConfusion heq)
      (hS.submitted h.scheduler hdone haccepts hinit)
      (hX.submitted h.scheduler hdone haccepts hinit) hcases
    refine ⟨hexits, ?_⟩
    have hthreads : ((sys.processes 0).threads ids 0).length =
        (({ sys.processes 0 with outbox := outbox } : Process).threads ids 0).length := by
      simp only [Process.threads, Process.used, houtbox, List.filterMap_cons, reported]
    have hmul := Nat.mul_le_mul_left k hless
    simp only [Process.toDo, hwork, hthreads, houtbox, List.map_cons, List.sum_cons, submission,
      mul_add, mul_one] at hmul ⊢
    omega

/-- **A round of the loop of the cluster manager** leaves less to do. -/
theorem Consistent.toDo_manage (hS : Exclusive info S accepts I) (hX : Exhausts S accepts I left)
    (h : Consistent S I ids out sys) (hpid : pid < n)
    (hfair : (Move.manage pid d).Fair accepts out sys)
    (hstep : System.step S ids sys (.manage pid d) = some (sys', o)) :
    sys'.toDo ids left n (out ++ scheduled o) + 2 * issuedCount (scheduled o) + 1 ≤
      sys.toDo ids left n out := by
  have h' := h.step hS hfair hstep
  simp only [System.step] at hstep
  split at hstep
  · cases hstep
  · next m outbox houtbox =>
      obtain ⟨⟨c, o₁⟩, hserve, hstep⟩ := Option.bind_eq_some_iff.mp hstep
      obtain ⟨rfl, rfl⟩ := Prod.mk.inj (Option.some.inj hstep)
      have hcost : exitCost n ≤ issueCost info n := by
        rw [exitCost, issueCost]
        omega
      obtain ⟨hexits, hhandle⟩ := h.toDo_handle hS hX houtbox hfair hserve hcost
      obtain ⟨hissued, hfinished⟩ := countP_messages o₁
      have hlength : (o₁.filterMap workerMessage).length ≤ issuedCount (scheduled o₁) + 1 := by
        rw [List.length_eq_countP_add_countP WorkerMessage.isFinished, hfinished, add_comm]
        simp only [Bool.not_eq_true, Bool.decide_eq_false, hissued]
        exact Nat.add_le_add_left hexits _
      have hbookings := sum_bookings_le (fun instance_ hmem =>
        (h'.agrees 0).booked.placed instance_
          (List.mem_append_right (Function.update sys.processes pid _ 0).inbox hmem)) n
      rw [hissued] at hbookings
      have hsum := sum_add_le_of_ne (Finset.mem_range.mpr hpid)
        (f := fun pid' => (Function.update sys.processes pid
          { sys.processes pid with outbox := outbox } pid').toDo ids (exitCost n) (issueCost info n) pid')
        (g := fun pid' => (sys.processes pid').toDo ids (exitCost n) (issueCost info n) pid')
        (v := pid) (a := exitCost n + issueCost info n *
          (left (out ++ scheduled o₁) c.taskScheduler + issuedCount (scheduled o₁)))
        (b := issueCost info n * left out sys.manager.taskScheduler)
        (by rw [Function.update_self, ← add_assoc]; exact hhandle)
        fun pid' hne => by rw [Function.update_of_ne hne]
      rw [System.toDo, System.toDo]
      dsimp only at hbookings hsum ⊢
      rw [Finset.sum_congr rfl fun pid' _ => toDo_deliver ids (exitCost n) (issueCost info n) pid' _ _,
        Finset.sum_add_distrib, Finset.sum_add_distrib, ← Finset.mul_sum, Finset.sum_const,
        Finset.card_range, smul_eq_mul]
      have hthreads := Nat.mul_le_mul_left (12 + exitCost n) hbookings
      have hmessages := Nat.mul_le_mul_left (6 * n) hlength
      have hpaid : issueCost info n * issuedCount (scheduled o₁) = (12 + exitCost n) *
          (info.globalTids.length * issuedCount (scheduled o₁)) +
            6 * n * issuedCount (scheduled o₁) + 2 * issuedCount (scheduled o₁) := by
        rw [issueCost]
        ring
      have hexit : exitCost n = 6 * n + 1 := rfl
      rw [mul_add] at hsum hmessages
      rw [mul_left_comm, ← mul_assoc 6]
      omega

end Steps

/-! ## The models -/

/-- The leaders that are at a stage. -/
def leadersAt {M : Type} (P : Stage M → Prop) (leaders : ℕ → ℕ → Option (Instance × Stage M)) :
    Set (ℕ × ℕ) :=
  {q | ∃ instance_ stage, leaders q.1 q.2 = some (instance_, stage) ∧ P stage}

/-- What is left to do for the leaders: to load their models, and to dump them. -/
noncomputable def leadersToDo {M : Type} (leaders : ℕ → ℕ → Option (Instance × Stage M)) : ℕ :=
  2 * (leadersAt (fun stage => stage = .fresh) leaders).ncard +
    (leadersAt (fun stage => ∃ model, stage = .working model) leaders).ncard

/-- What is left to do for the models at the first `n` processes. -/
noncomputable def Transfers.underWay {σ M : Type} (n : ℕ) (x : Transfers σ M) : ℕ :=
  (∑ pid ∈ Finset.range n, (2 * (x.signals pid).length + (x.commands pid).length)) +
    leadersToDo x.leaders

section Leaders

variable {M : Type} {P : Stage M → Prop} {leaders : ℕ → ℕ → Option (Instance × Stage M)}
  {instance_ : Instance} {stage : Stage M} {pid id : ℕ}

theorem leadersAt_of (hP : P stage) :
    leadersAt P (updateEntry leaders pid id (some (instance_, stage))) =
      insert (pid, id) (leadersAt P leaders) := by
  ext ⟨pid', id'⟩
  simp only [leadersAt, Set.mem_ofPred_eq, Set.mem_insert_iff, updateEntry_apply, Prod.mk.injEq]
  split
  · next heq => exact iff_of_true ⟨_, _, rfl, hP⟩ (.inl heq)
  · next hne => exact (or_iff_right hne).symm

theorem leadersAt_of_not (hP : ¬ P stage) :
    leadersAt P (updateEntry leaders pid id (some (instance_, stage))) =
      leadersAt P leaders \ {(pid, id)} := by
  ext ⟨pid', id'⟩
  simp only [leadersAt, Set.mem_ofPred_eq, Set.mem_sdiff, Set.mem_singleton_iff, updateEntry_apply,
    Prod.mk.injEq]
  split
  · next heq =>
      refine iff_of_false ?_ fun hmem => hmem.2 heq
      rintro ⟨_, _, heq', hP'⟩
      obtain ⟨-, rfl⟩ := Prod.mk.inj (Option.some.inj heq')
      exact hP hP'
  · next hne => exact (and_iff_left hne).symm

/-- The leaders that there have been are finitely many. -/
theorem finite_updateEntry (h : (leadersAt (fun _ => True) leaders).Finite) :
    (leadersAt (fun _ => True) (updateEntry leaders pid id (some (instance_, stage)))).Finite := by
  rw [leadersAt_of trivial]
  exact h.insert (pid, id)

theorem finite_leadersAt (h : (leadersAt (fun _ => True) leaders).Finite) (P : Stage M → Prop) :
    (leadersAt P leaders).Finite :=
  h.subset fun _ ⟨instance_, stage, heq, _⟩ => ⟨instance_, stage, heq, trivial⟩

/-- **A leader starts.** -/
theorem leadersToDo_start (leaders : ℕ → ℕ → Option (Instance × Stage M)) (pid id : ℕ)
    (instance_ : Instance) :
    leadersToDo (updateEntry leaders pid id (some (instance_, .fresh))) ≤ leadersToDo leaders + 2 := by
  have hfresh := Set.ncard_insert_le (pid, id) (leadersAt (fun stage => stage = .fresh) leaders)
  have hworking := Set.ncard_sdiff_singleton_le
    (leadersAt (fun stage => ∃ model, stage = .working model) leaders) (pid, id)
  rw [leadersToDo, leadersToDo, leadersAt_of (P := fun stage => stage = .fresh) rfl,
    leadersAt_of_not (by rintro ⟨_, ⟨⟩⟩)]
  omega

/-- **A leader loads its model.** -/
theorem leadersToDo_load (model : M) (h : (leadersAt (fun _ => True) leaders).Finite)
    (hleader : leaders pid id = some (instance_, .fresh)) :
    leadersToDo (updateEntry leaders pid id (some (instance_, .working model))) + 1 ≤
      leadersToDo leaders := by
  have hmem : (pid, id) ∈ leadersAt (fun stage : Stage M => stage = .fresh) leaders :=
    ⟨instance_, _, hleader, rfl⟩
  have hfresh := Set.ncard_sdiff_singleton_add_one hmem (finite_leadersAt h _)
  have hworking := Set.ncard_insert_le (pid, id)
    (leadersAt (fun stage => ∃ model, stage = .working model) leaders)
  rw [leadersToDo, leadersToDo, leadersAt_of_not (P := fun stage => stage = .fresh) (by rintro ⟨⟩),
    leadersAt_of (P := fun stage => ∃ model, stage = .working model) ⟨model, rfl⟩]
  omega

/-- **A leader dumps its model.** -/
theorem leadersToDo_dump (h : (leadersAt (fun _ => True) leaders).Finite) {model : M}
    (hleader : leaders pid id = some (instance_, .working model)) :
    leadersToDo (updateEntry leaders pid id (some (instance_, .dumped))) + 1 ≤
      leadersToDo leaders := by
  have hmem : (pid, id) ∈
      leadersAt (fun stage : Stage M => ∃ model, stage = .working model) leaders :=
    ⟨instance_, _, hleader, model, rfl⟩
  have hworking := Set.ncard_sdiff_singleton_add_one hmem (finite_leadersAt h _)
  have hfresh := Set.ncard_sdiff_singleton_le
    (leadersAt (fun stage : Stage M => stage = .fresh) leaders) (pid, id)
  rw [leadersToDo, leadersToDo, leadersAt_of_not (P := fun stage => stage = .fresh) (by rintro ⟨⟩),
    leadersAt_of_not (P := fun stage => ∃ model, stage = .working model) (by rintro ⟨_, ⟨⟩⟩)]
  omega

end Leaders

/-- A step of the first `n` processes, and no submission. -/
def Move.Within (n : ℕ) : Move → Prop
  | submit _ => False
  | enter pid => pid < n
  | receive pid => pid < n
  | complete pid _ => pid < n
  | report pid _ => pid < n
  | remove pid => pid < n
  | manage pid _ => pid < n

/-- A step of the first `n` processes, and no submission. -/
def TransferMove.Within {M : Type} (n : ℕ) : TransferMove M → Prop
  | system i => i.Within n
  | forward pid => pid < n
  | send pid => pid < n
  | load pid _ _ => pid < n
  | dump pid _ _ => pid < n

theorem Move.Within.cases {n : ℕ} {i : Move} (h : i.Within n) :
    (∃ pid, i.worker = some pid ∧ pid < n) ∨ ∃ pid d, i = .manage pid d ∧ pid < n := by
  cases i with
  | submit _ => exact h.elim
  | manage pid d => exact .inr ⟨pid, d, rfl, h⟩
  | _ => exact .inl ⟨_, rfl, h⟩

/-- What is left to do until the next submission. -/
noncomputable def Transfers.toDo {σ M : Type} {info : WorkerInfo} (ids : LocalIds info)
    (left : List SchedEvent → σ → ℕ) (n : ℕ) (out : List (TransferEvent M)) (x : Transfers σ M) : ℕ :=
  x.system.toDo ids left n (issued out) + x.underWay n

section Transfers

variable {σ M : Type} {info : WorkerInfo} {S : TaskScheduler σ} {ids : LocalIds info}
  {dmt : ℕ → Bool} {accepts : List SchedEvent → σ → List Task → Prop}
  {I : List SchedEvent → σ → Prop} {left : List SchedEvent → σ → ℕ}
  {out o : List (TransferEvent M)} {x x' : Transfers σ M} {i : TransferMove M} {j : Move}
  {last last' : ℕ → Option Instance} {events : List ClusterEvent} {transfers : List (ℕ × Transfer)}
  {pid id n : ℕ} {model : M}

/-- A message about a transfer is sent for an instance at most. -/
theorem transfers_length_le (h : run (sendInstances info dmt) last events = some (last', transfers)) :
    transfers.length ≤ issuedCount (scheduled events) := by
  induction events generalizing last transfers with
  | nil =>
      obtain ⟨-, rfl⟩ := Prod.mk.inj (Option.some.inj h)
      exact Nat.zero_le _
  | cons e events ih =>
      rw [run_cons, Option.bind_eq_some_iff] at h
      obtain ⟨⟨last₁, sent⟩, hfirst, h⟩ := h
      obtain ⟨⟨last₂, rest⟩, hrest, h⟩ := Option.bind_eq_some_iff.mp h
      obtain ⟨rfl, rfl⟩ := Prod.mk.inj (Option.some.inj h)
      have hle := ih hrest
      have hcons : issuedCount (scheduled (e :: events)) =
          issuedCount (scheduled [e]) + issuedCount (scheduled events) := by
        rw [← issuedCount_append, ← scheduled_append]
        rfl
      have hsent : sent.length ≤ issuedCount (scheduled [e]) := by
        rcases e with (_ | instance_ | _ | _ | _) | _
        case scheduled.issued =>
          obtain ⟨sent', hsent, heq⟩ := Option.map_eq_some_iff.mp hfirst
          obtain ⟨-, rfl⟩ := Prod.mk.inj heq
          unfold sendLastInstance at hsent
          split at hsent
          · obtain rfl := Option.some.inj hsent
            exact Nat.zero_le _
          · split at hsent
            · obtain rfl := Option.some.inj hsent
              exact Nat.zero_le _
            · simp only [Option.bind_eq_bind, Option.bind_eq_some_iff] at hsent
              obtain ⟨_, -, _, -, _, -, hsent⟩ := hsent
              obtain rfl := Option.some.inj hsent
              exact le_refl 1
        all_goals
          obtain ⟨-, rfl⟩ := Prod.mk.inj (Option.some.inj hfirst)
          exact Nat.zero_le _
      rw [List.length_append, hcons]
      exact Nat.add_le_add hsent hle

/-- The leaders change at one place. -/
theorem startLeader_cases (x : Transfers σ M) (j : Move) : x.startLeader j = x.leaders ∨
    ∃ pid instance_, j = .receive pid ∧
      x.startLeader j = updateEntry x.leaders pid instance_.id (some (instance_, .fresh)) := by
  cases j with
  | receive pid =>
      simp only [Transfers.startLeader]
      split
      · split
        · exact .inl rfl
        · next instance_ _ _ _ => exact .inr ⟨pid, instance_, rfl, rfl⟩
      · exact .inl rfl
  | _ => exact .inl rfl

theorem load_cases (h : x.load pid id model = some (x', o)) :
    ∃ instance_ loaded, x.leaders pid id = some (instance_, .fresh) ∧
      x'.leaders = updateEntry x.leaders pid id (some (instance_, .working loaded)) ∧
      x'.signals = x.signals ∧ x'.commands = x.commands ∧
      o = [.loaded id instance_.epoch loaded] := by
  unfold Transfers.load at h
  split at h
  · next instance_ hleader =>
      split at h
      · obtain ⟨rfl, rfl⟩ := Prod.mk.inj (Option.some.inj h)
        exact ⟨instance_, model, hleader, rfl, rfl, rfl, rfl⟩
      · obtain ⟨th, -, h⟩ := Option.bind_eq_some_iff.mp h
        split at h
        · cases h
        · next loaded rest _ =>
            obtain ⟨rfl, rfl⟩ := Prod.mk.inj (Option.some.inj h)
            exact ⟨instance_, loaded, hleader, rfl, rfl, rfl, rfl⟩
  · cases h

theorem dump_cases (h : x.dump pid id model = some (x', o)) :
    ∃ instance_ loaded, x.leaders pid id = some (instance_, .working loaded) ∧
      x'.leaders = updateEntry x.leaders pid id (some (instance_, .dumped)) ∧
      x'.signals = x.signals ∧ x'.commands = x.commands ∧
      o = [.dumped id instance_.epoch model] := by
  unfold Transfers.dump at h
  split at h
  · next instance_ loaded hleader =>
      obtain ⟨rfl, rfl⟩ := Prod.mk.inj (Option.some.inj h)
      exact ⟨instance_, loaded, hleader, rfl, rfl, rfl, rfl⟩
  · cases h

/-- Messages about transfers have been sent. -/
theorem sum_signal_le (signals commands : ℕ → List Transfer) (transfers : List (ℕ × Transfer))
    (n : ℕ) :
    ∑ pid ∈ Finset.range n,
        (2 * (Transfers.signal signals transfers pid).length + (commands pid).length) ≤
      (∑ pid ∈ Finset.range n, (2 * (signals pid).length + (commands pid).length)) +
        2 * transfers.length := by
  have hparts := sum_length_filter_le (Finset.range n) Prod.fst transfers
  have hsignal : ∀ pid, 2 * (Transfers.signal signals transfers pid).length + (commands pid).length =
      2 * (signals pid).length + (commands pid).length +
        2 * (transfers.filter (·.1 = pid)).length := by
    intro pid
    rw [Transfers.signal, List.length_append, List.length_map]
    ring
  rw [Finset.sum_congr rfl fun pid _ => hsignal pid, Finset.sum_add_distrib, ← Finset.mul_sum]
  exact Nat.add_le_add_left (Nat.mul_le_mul_left 2 hparts) _

theorem underWay_forward (hpid : pid < n) (h : x.forward pid = some x') :
    x'.leaders = x.leaders ∧ x'.underWay n + 1 ≤ x.underWay n := by
  unfold Transfers.forward at h
  split at h
  · split at h
    · cases h
    · next c signals hsignals =>
        obtain rfl := Option.some.inj h
        refine ⟨rfl, ?_⟩
        have hsum := sum_add_le_of_ne (Finset.mem_range.mpr hpid) (v := pid) (a := 1) (b := 0)
          (f := fun pid' => 2 * (Function.update x.signals pid signals pid').length +
            (Function.update x.commands pid (x.commands pid ++ [c]) pid').length)
          (g := fun pid' => 2 * (x.signals pid').length + (x.commands pid').length)
          (by simp only [Function.update_self, hsignals, List.length_cons, List.length_append,
                List.length_nil]
              omega)
          fun pid' hne => by simp only [Function.update_of_ne hne]
        rw [Transfers.underWay, Transfers.underWay]
        dsimp only
        omega
  · cases h

theorem underWay_send (hpid : pid < n) (h : x.send pid = some x') :
    x'.leaders = x.leaders ∧ x'.underWay n + 1 ≤ x.underWay n := by
  unfold Transfers.send at h
  split at h
  · cases h
  · next c commands hcommands =>
      obtain ⟨model, -, rfl⟩ := Option.map_eq_some_iff.mp h
      refine ⟨rfl, ?_⟩
      have hsum := sum_add_le_of_ne (Finset.mem_range.mpr hpid) (v := pid) (a := 1) (b := 0)
        (f := fun pid' => 2 * (x.signals pid').length +
          (Function.update x.commands pid commands pid').length)
        (g := fun pid' => 2 * (x.signals pid').length + (x.commands pid').length)
        (by simp only [Function.update_self, hcommands, List.length_cons]
            omega)
        fun pid' hne => by simp only [Function.update_of_ne hne]
      rw [Transfers.underWay, Transfers.underWay]
      dsimp only
      omega

/-- There have been finitely many leaders. -/
theorem finite_step (hstep : x.step S ids dmt i = some (x', o))
    (hfinite : (leadersAt (fun _ => True) x.leaders).Finite) :
    (leadersAt (fun _ => True) x'.leaders).Finite := by
  cases i with
  | system j =>
      simp only [Transfers.step] at hstep
      split at hstep
      · obtain ⟨⟨sys, events⟩, -, hstep⟩ := Option.bind_eq_some_iff.mp hstep
        obtain ⟨⟨last, transfers⟩, -, hstep⟩ := Option.bind_eq_some_iff.mp hstep
        obtain ⟨rfl, rfl⟩ := Prod.mk.inj (Option.some.inj hstep)
        rcases startLeader_cases x j with hsame | ⟨pid, instance_, -, hstart⟩
        · exact hsame ▸ hfinite
        · exact hstart ▸ finite_updateEntry hfinite
      · cases hstep
  | forward pid =>
      obtain ⟨y, hy, heq⟩ := Option.map_eq_some_iff.mp hstep
      obtain ⟨rfl, rfl⟩ := Prod.mk.inj heq
      exact (underWay_forward (Nat.lt_succ_self pid) hy).1 ▸ hfinite
  | send pid =>
      obtain ⟨y, hy, heq⟩ := Option.map_eq_some_iff.mp hstep
      obtain ⟨rfl, rfl⟩ := Prod.mk.inj heq
      exact (underWay_send (Nat.lt_succ_self pid) hy).1 ▸ hfinite
  | load pid id stored =>
      simp only [Transfers.step] at hstep
      split at hstep
      · obtain ⟨_, _, -, hleaders, -⟩ := load_cases hstep
        exact hleaders ▸ finite_updateEntry hfinite
      · cases hstep
  | dump pid id model =>
      simp only [Transfers.step] at hstep
      split at hstep
      · obtain ⟨_, _, -, hleaders, -⟩ := dump_cases hstep
        exact hleaders ▸ finite_updateEntry hfinite
      · cases hstep

/-- **Every step** leaves less to do. -/
theorem Handing.toDo_step (hS : HandsOver dmt info S accepts I) (hX : Exhausts S accepts I left)
    (h : Handing S I ids dmt out x) (hfinite : (leadersAt (fun _ => True) x.leaders).Finite)
    (hwithin : i.Within n) (hfair : i.Fair accepts (issued out) x)
    (hstep : x.step S ids dmt i = some (x', o)) :
    x'.toDo ids left n (out ++ o) < x.toDo ids left n out := by
  -- a step that the cluster manager and the processes have no part in
  have haside : x'.system = x.system → issued (out ++ o) = issued out →
      x'.underWay n + 1 ≤ x.underWay n →
      x'.toDo ids left n (out ++ o) < x.toDo ids left n out := by
    intro hsystem hissued hless
    rw [Transfers.toDo, Transfers.toDo, hsystem, hissued]
    omega
  have hsilent : issued (out ++ []) = issued out := by rw [List.append_nil]
  cases i with
  | system j =>
      simp only [Transfers.step] at hstep
      split at hstep
      · obtain ⟨⟨sys, events⟩, hsys, hstep⟩ := Option.bind_eq_some_iff.mp hstep
        obtain ⟨⟨last, transfers⟩, hrun, hstep⟩ := Option.bind_eq_some_iff.mp hstep
        obtain ⟨rfl, rfl⟩ := Prod.mk.inj (Option.some.inj hstep)
        have hsent : transfers.length ≤ issuedCount (scheduled events) := transfers_length_le hrun
        have hsum := sum_signal_le x.signals x.commands transfers n
        rw [Transfers.toDo, Transfers.toDo, Transfers.underWay, Transfers.underWay, issued_cluster]
        dsimp only
        rcases hwithin.cases with ⟨pid, hworker, hpid⟩ | ⟨pid, d, rfl, hpid⟩
        · have hless := h.consistent.toDo_worker left hS.toExclusive hworker hpid hsys
          obtain ⟨rfl, -⟩ := worker_cases hworker hsys
          have hnone : transfers.length = 0 := Nat.le_zero.mp hsent
          rw [show issued out ++ scheduled [] = issued out from List.append_nil _]
          rcases startLeader_cases x j with hsame | ⟨pid', instance_, -, hstart⟩
          · rw [hsame]
            omega
          · have hleaders := leadersToDo_start x.leaders pid' instance_.id instance_
            rw [hstart]
            omega
        · have hless := h.consistent.toDo_manage hS.toExclusive hX hpid hfair hsys
          have hsame : x.startLeader (.manage pid d) = x.leaders := rfl
          rw [hsame]
          omega
      · cases hstep
  | forward pid =>
      obtain ⟨y, hy, heq⟩ := Option.map_eq_some_iff.mp hstep
      obtain ⟨rfl, rfl⟩ := Prod.mk.inj heq
      exact haside (Transfers.forward_system hy) hsilent (underWay_forward hwithin hy).2
  | send pid =>
      obtain ⟨y, hy, heq⟩ := Option.map_eq_some_iff.mp hstep
      obtain ⟨rfl, rfl⟩ := Prod.mk.inj heq
      exact haside (Transfers.send_system hy) hsilent (underWay_send hwithin hy).2
  | load pid id stored =>
      simp only [Transfers.step] at hstep
      split at hstep
      · obtain ⟨instance_, loaded, hleader, hleaders, hsignals, hcommands, rfl⟩ := load_cases hstep
        have hless := leadersToDo_load loaded hfinite hleader
        refine haside (Transfers.load_system hstep) (issued_model rfl) ?_
        rw [Transfers.underWay, Transfers.underWay, hleaders, hsignals, hcommands]
        omega
      · cases hstep
  | dump pid id model =>
      simp only [Transfers.step] at hstep
      split at hstep
      · obtain ⟨instance_, loaded, hleader, hleaders, hsignals, hcommands, rfl⟩ := dump_cases hstep
        have hless := leadersToDo_dump hfinite hleader
        refine haside (Transfers.dump_system hstep) (issued_model rfl) ?_
        rw [Transfers.underWay, Transfers.underWay, hleaders, hsignals, hcommands]
        omega
      · cases hstep

/-- Only so many steps of the first processes are left until the next submission. -/
def ComesToRest (S : TaskScheduler σ) (ids : LocalIds info) (dmt : ℕ → Bool)
    (accepts : List SchedEvent → σ → List Task → Prop) (out : List (TransferEvent M))
    (x : Transfers σ M) : Prop :=
  ∀ n, ∃ bound, ∀ moves x' o, (∀ i ∈ moves, TransferMove.Within n i) →
    Along (Transfers.step S ids dmt) (fun before x i => i.Fair accepts (issued before) x) out x
      moves →
    run (Transfers.step S ids dmt) x moves = some (x', o) → moves.length ≤ bound

theorem TransferRun.comesToRest {s : σ} {countThreshold : ℕ} (hS : HandsOver dmt info S accepts I)
    (hX : Exhausts S accepts I left) (hI : I [] s) (hdone : S.isFinished s = true)
    (h : TransferRun S ids dmt accepts s countThreshold out x) :
    ComesToRest S ids dmt accepts out x := by
  have hhanding := h.handing hS hI hdone
  have hfinite : (leadersAt (fun _ => True) x.leaders).Finite := by
    obtain ⟨moves, -, hrun⟩ := h
    refine (run_invariant (I := fun x : Transfers σ M => (leadersAt (fun _ => True) x.leaders).Finite)
      (Q := fun _ _ => True) (fun hx hstep => ⟨finite_step hstep hx, fun _ _ => trivial⟩) ?_ hrun).1
    refine Set.finite_empty.subset ?_
    rintro q ⟨_, _, ⟨⟩, -⟩
  intro n
  refine ⟨x.toDo ids left n out, fun moves x' o hwithin hfair hrun => ?_⟩
  have hlength := (run_along_length_le
    (I := fun out (x : Transfers σ M) => Handing S I ids dmt out x ∧
      (leadersAt (fun _ => True) x.leaders).Finite)
    (m := fun out x => x.toDo ids left n out) ?_ ⟨hhanding, hfinite⟩
    (hfair.and (along_of_forall hwithin out x)) hrun).2
  · exact (Nat.le_add_right _ _).trans hlength
  · rintro out x i x' o ⟨hx, hfinite⟩ ⟨hfair, hwithin⟩ hstep
    exact ⟨⟨hx.step hS hfair hstep, finite_step hstep hfinite⟩,
      hx.toDo_step hS hX hfinite hwithin hfair hstep⟩

end Transfers

/-- **The system comes to rest**: from every state that the cluster manager, the processes and the
leaders can reach, only finitely many steps are left before the next submission, whatever their order
is. -/
theorem system_comes_to_rest (M : Type) {info : WorkerInfo} (ids : LocalIds info) (dmt : ℕ → Bool)
    (countThreshold : ℕ) : InAllTransfers M ids dmt countThreshold fun S accepts out x =>
      ComesToRest S ids dmt accepts out x := by
  refine ⟨fun out x hrun => ?_, fun out x hrun => ?_, fun out x hrun => ?_⟩
  · exact hrun.comesToRest (SequentialTaskScheduler.handsOver dmt info)
      (SequentialTaskScheduler.exhausts dmt info) (SequentialTaskScheduler.lasts_start dmt info) rfl
  · exact hrun.comesToRest (GreedyTaskScheduler.handsOver dmt info)
      (GreedyTaskScheduler.exhausts dmt info) (GreedyTaskScheduler.lasts_start dmt info) rfl
  · exact hrun.comesToRest (PriorityTaskScheduler.handsOver dmt info)
      (PriorityTaskScheduler.exhausts dmt info) (PriorityTaskScheduler.lasts_start dmt info) rfl

end FlexPS.Worker
