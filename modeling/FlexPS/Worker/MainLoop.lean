import FlexPS.Scheduler.ClusterManager
import FlexPS.Worker.InstanceRunner

/-!
# The cluster manager and the workers

Every process has a worker, which receives instances from the cluster manager and runs their threads.
A thread that has finished tells the worker, and the worker tells the cluster manager before it looks
whether the instance is done.

## Main definitions

* `Process` — a worker, its threads and its channels.
* `Process.submit`, `Process.receive`, `Process.complete`, `Process.report`, `Process.remove` — the
  steps of a process.
* `System`, `System.step` — the cluster manager and all processes.
* `Works` — what their steps can lead to.
* `NeverDoubleBooked` — the assertions of the workers.
-/

namespace FlexPS.Worker

open Lib Scheduler

/-- `kTaskType` and `kClusterManagerFinished`; the messages about the transfer of models do not concern
instances. -/
inductive WorkerMessage where
  | task (instance_ : Instance)
  | finished

/-- What the cluster manager sends to all workers. -/
def workerMessage : ClusterEvent → Option WorkerMessage
  | .scheduled (.issued instance_) => some (.task instance_)
  | .scheduled _ => none
  | .exitSignal => some .finished

theorem filterMap_workerMessage_singleton (e : SchedEvent) :
    ([e].map ClusterEvent.scheduled).filterMap workerMessage =
      (workerMessage (.scheduled e)).toList := by
  rw [List.map_singleton, List.filterMap_cons]
  cases workerMessage (.scheduled e) with
  | none => rfl
  | some m => rfl

/-- Where a worker is: outside of `main_loop`, waiting for a message, or about to look whether the
instance is done, after it has told the cluster manager that a thread has finished. -/
inductive Phase where
  | outside
  | waiting
  | removing (instanceId : ℕ)
  deriving DecidableEq

/-- A process: its worker, the threads that run, by the id of the instance and their local ids, and
what is under way to the worker from its threads and from the cluster manager, and to the cluster
manager. -/
structure Process where
  runner : InstanceRunner
  phase : Phase
  running : List (ℕ × ℕ)
  threadFinished : List (ℕ × ℕ)
  inbox : List WorkerMessage
  outbox : List ClusterMessage

namespace Process

variable {info : WorkerInfo} (ids : LocalIds info) (pid : ℕ)

/-- Nothing has happened. -/
def start : Process := ⟨.start, .outside, [], [], [], []⟩

/-- `Submit` on the process that sends the tasks. -/
def submit (tasks : List Task) (p : Process) : Option Process :=
  if p.phase = .outside then some { p with phase := .waiting, outbox := p.outbox ++ [.init tasks] }
  else none

/-- `Submit` on another process. -/
def enter (p : Process) : Option Process :=
  if p.phase = .outside then some { p with phase := .waiting } else none

/-- The worker receives a message from the cluster manager; `none` for a failed assertion. -/
def receive (p : Process) : Option Process :=
  if p.phase = .waiting then
    match p.inbox with
    | [] => none
    | .task instance_ :: inbox =>
        (p.runner.runInstance ids pid instance_).map fun r =>
          { p with runner := r.1, running := p.running ++ r.2, inbox := inbox }
    | .finished :: inbox => some { p with phase := .outside, inbox := inbox }
  else none

/-- A thread has run the function of its task, and tells the worker. -/
def complete (n : ℕ) (p : Process) : Option Process :=
  p.running[n]?.map fun th =>
    { p with running := p.running.eraseIdx n, threadFinished := p.threadFinished ++ [th] }

/-- The worker receives `kThreadFinished` from one of the threads, whose messages may arrive in any
order, joins the thread and tells the cluster manager. -/
def report (n : ℕ) (p : Process) : Option Process :=
  if p.phase = .waiting then do
    let th ← p.threadFinished[n]?
    let runner ← p.runner.finishThread th.1 th.2
    some { p with
      runner := runner
      phase := .removing th.1
      threadFinished := p.threadFinished.eraseIdx n
      outbox := p.outbox ++ [.threadFinished th.1 (ids.localToGlobalId pid th.2) 0] }
  else none

/-- The worker removes the instance if it is done; `none` for a failed assertion. -/
def remove (p : Process) : Option Process :=
  match p.phase with
  | .removing instanceId =>
      let done := p.runner.isInstanceDone instanceId
      if done.2 then
        (done.1.removeInstance instanceId).map fun r => { p with runner := r, phase := .waiting }
      else some { p with runner := done.1, phase := .waiting }
  | _ => none

/-- The cluster manager has sent messages. -/
def deliver (messages : List WorkerMessage) (p : Process) : Process :=
  { p with inbox := p.inbox ++ messages }

@[simp] theorem deliver_nil (p : Process) : p.deliver [] = p := by
  rw [deliver, List.append_nil]

theorem deliver_deliver (p : Process) (messages messages' : List WorkerMessage) :
    (p.deliver messages).deliver messages' = p.deliver (messages ++ messages') := by
  simp only [deliver, List.append_assoc]

end Process

/-- The cluster manager and the processes. -/
structure System (σ : Type) where
  manager : ClusterManager σ
  processes : ℕ → Process

/-- The steps; the first process is `0`, and the cluster manager receives a message from one of the
processes. -/
inductive Move where
  | submit (tasks : List Task)
  | enter (pid : ℕ)
  | receive (pid : ℕ)
  | complete (pid n : ℕ)
  | report (pid n : ℕ)
  | remove (pid : ℕ)
  | manage (pid : ℕ) (d : Draw)

namespace System

variable {σ : Type} (S : TaskScheduler σ) {info : WorkerInfo} (ids : LocalIds info)

/-- Nothing has happened. -/
def start (s₀ : σ) (countThreshold : ℕ) : System σ := ⟨⟨s₀, .new countThreshold⟩, fun _ => .start⟩

/-- A step of a process. -/
def atProcess (sys : System σ) (pid : ℕ) (p : Option Process) :
    Option (System σ × List ClusterEvent) :=
  p.map fun p => ({ sys with processes := Function.update sys.processes pid p }, [])

/-- A step. -/
def step (sys : System σ) : Move → Option (System σ × List ClusterEvent)
  | .submit tasks => sys.atProcess 0 ((sys.processes 0).submit tasks)
  | .enter pid => if pid = 0 then none else sys.atProcess pid (sys.processes pid).enter
  | .receive pid => sys.atProcess pid ((sys.processes pid).receive ids pid)
  | .complete pid n => sys.atProcess pid ((sys.processes pid).complete n)
  | .report pid n => sys.atProcess pid ((sys.processes pid).report ids pid n)
  | .remove pid => sys.atProcess pid (sys.processes pid).remove
  | .manage pid d =>
      match (sys.processes pid).outbox with
      | [] => none
      | m :: outbox => do
          let (manager, o) ← ClusterManager.serve S sys.manager (m, d)
          let processes := Function.update sys.processes pid { sys.processes pid with outbox := outbox }
          some (⟨manager, fun pid => (processes pid).deliver (o.filterMap workerMessage)⟩, o)

end System

/-- The submitted tasks are accepted. -/
def Move.Fair {σ : Type} (accepts : List SchedEvent → σ → List Task → Prop) (out : List SchedEvent)
    (sys : System σ) : Move → Prop
  | .manage pid _ => ∀ tasks outbox, (sys.processes pid).outbox = .init tasks :: outbox →
      accepts out sys.manager.taskScheduler tasks
  | _ => True

/-- What the steps of the cluster manager and of the processes can lead to. -/
def Works {σ : Type} (S : TaskScheduler σ) {info : WorkerInfo} (ids : LocalIds info)
    (accepts : List SchedEvent → σ → List Task → Prop) (s₀ : σ) (countThreshold : ℕ)
    (out : List ClusterEvent) (sys : System σ) : Prop :=
  ∃ moves, Along (System.step S ids) (fun before sys i => i.Fair accepts (scheduled before) sys) []
    (.start s₀ countThreshold) moves ∧
  run (System.step S ids) (.start s₀ countThreshold) moves = some (sys, out)

/-- **The workers never double-book**: when a worker handles `kTaskType`, it keeps no instance with
that id and no unit that it assigns is joinable, so that `run_instance` passes its assertions; and it
removes an instance whose entry in `instance_keeper_` is empty. -/
structure NeverDoubleBooked {σ : Type} {info : WorkerInfo} (ids : LocalIds info) (sys : System σ) :
    Prop where
  fresh : ∀ pid instance_ inbox, (sys.processes pid).phase = .waiting →
    (sys.processes pid).inbox = .task instance_ :: inbox →
    instance_.id ∉ (sys.processes pid).runner.instances
  free : ∀ pid instance_ inbox, (sys.processes pid).phase = .waiting →
    (sys.processes pid).inbox = .task instance_ :: inbox →
    ∀ th ∈ InstanceRunner.extractLocalInstance ids pid instance_,
      (sys.processes pid).runner.units th.1 = false
  assigned : ∀ pid instance_ inbox, (sys.processes pid).phase = .waiting →
    (sys.processes pid).inbox = .task instance_ :: inbox →
    ∃ p, (sys.processes pid).receive ids pid = some p
  removed : ∀ pid instanceId, (sys.processes pid).phase = .removing instanceId →
    ((sys.processes pid).runner.isInstanceDone instanceId).2 = true →
    ((sys.processes pid).runner.isInstanceDone instanceId).1.instanceKeeper.getD instanceId [] = [] ∧
      ∃ p, (sys.processes pid).remove = some p

end FlexPS.Worker
