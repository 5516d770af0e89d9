import Mathlib.Algebra.Group.Nat.Defs
import Mathlib.Data.Int.Notation
import Mathlib.Data.List.Infix
import Mathlib.Data.List.Sort
import Mathlib.Tactic.Common

/-!
# Tasks and instances

A task is run epoch by epoch; an instance is one epoch of it together with the threads that run it.

## Main definitions

* `WorkerInfo` — the processes and threads of the cluster.
* `Task`, `Instance` — what is scheduled.
* `WorkerNumType` — how the threads of a `ConfigurableWorkersTask` are chosen.
-/

namespace FlexPS.Scheduler

/-- The worker threads of the cluster and the process of each. -/
structure WorkerInfo where
  numProcesses : ℕ
  globalTids : List ℕ
  processId : ℕ → ℕ
  nodup : globalTids.Nodup
  processId_lt : ∀ tid ∈ globalTids, processId tid < numProcesses

namespace WorkerInfo

/-- One thread on each of `n` processes. -/
def oneEach (n : ℕ) : WorkerInfo where
  numProcesses := n
  globalTids := List.range n
  processId := id
  nodup := List.nodup_range
  processId_lt _ := List.mem_range.mp

/-- All of `n` threads on one process. -/
def oneProcess (n : ℕ) : WorkerInfo where
  numProcesses := 1
  globalTids := List.range n
  processId _ := 0
  nodup := List.nodup_range
  processId_lt _ _ := Nat.one_pos

variable (info : WorkerInfo)

/-- `get_pids()`. -/
def pids : List ℕ := List.range info.numProcesses

/-- The threads of a process. -/
def localTids (pid : ℕ) : List ℕ := info.globalTids.filter fun tid => info.processId tid = pid

/-- `get_num_local_workers(pid)`. -/
def numLocalWorkers (pid : ℕ) : ℕ := (info.localTids pid).length

/-- `Context::get_num_workers()`. -/
def numWorkers : ℕ := info.globalTids.length

end WorkerInfo

/-! ## Tasks -/

/-- How the threads of an epoch are chosen. -/
inductive WorkerNumType where
  | threadsPerWorker
  | threadsPerCluster
  | localThreads
  | threadsTraverseCluster
  /-- On one process; `none` when `std::stoi` throws. -/
  | threadsOnWorker (worker : Option ℤ)
  | illegal
  deriving DecidableEq, Repr

/-- `std::stoi`. -/
def stoi (cs : List Char) : Option ℤ :=
  let cs := cs.dropWhile Char.isWhitespace
  let (negative, cs) := match cs with
    | '-' :: cs => (true, cs)
    | '+' :: cs => (false, cs)
    | cs => (false, cs)
  let digits := cs.takeWhile Char.isDigit
  let n := digits.foldl (fun n c => 10 * n + (c.toNat - '0'.toNat)) 0
  if digits = [] ∨ 2 ^ 31 ≤ n then none else some (if negative then -n else n)

/-- The comparisons with an entry of `worker_num_type`. -/
def WorkerNumType.parse (type : String) : WorkerNumType :=
  if type = "threads_per_worker" then threadsPerWorker
  else if type = "threads_per_cluster" then threadsPerCluster
  else if type = "local_threads" then localThreads
  else if type = "threads_traverse_cluster" then threadsTraverseCluster
  else if "threads_on_worker".toList <:+: type.toList then
    match type.toList.splitOn ':' with
    | [_, worker] => threadsOnWorker (stoi worker)
    | _ => illegal
  else illegal

example : WorkerNumType.parse "threads_on_worker:12" = .threadsOnWorker (some 12) := by decide

/-- `Task::Type`, with the fields of the class derived for it. -/
inductive TaskType where
  | basic
  | configurableWorkers (workerNum : List ℕ) (workerNumType : List String)
  | autoParallelism (epochIters batchsizes : List ℤ) (currentStageIters : ℤ)
  deriving DecidableEq, Repr

/-- A task; `is_local` is `local_`. -/
structure Task where
  id : ℕ
  totalEpoch : ℕ
  currentEpoch : ℕ
  numWorkers : ℕ
  type : TaskType
  isLocal : Bool
  deriving DecidableEq, Repr

namespace Task

/-- `inc_epoch()`. -/
def incEpoch (t : Task) : Task := { t with currentEpoch := t.currentEpoch + 1 }

/-- `get_type() == BasicTaskType`. -/
def isBasic (t : Task) : Bool := t.type = .basic

/-- `get_type() == ConfigurableWorkersTaskType`. -/
def isConfigurable (t : Task) : Bool :=
  match t.type with
  | .configurableWorkers _ _ => true
  | _ => false

/-- The next epoch is run on one process at a time: the task is a local basic task, or a
`ConfigurableWorkersTask` that traverses the cluster with it. -/
def traverses (t : Task) : Bool :=
  match t.type with
  | .basic => t.isLocal
  | .configurableWorkers workerNum workerNumType =>
      (workerNumType[t.currentEpoch % workerNum.length]?).map WorkerNumType.parse =
        some .threadsTraverseCluster
  | .autoParallelism _ _ _ => false

@[simp] theorem incEpoch_id (t : Task) : t.incEpoch.id = t.id := rfl

@[simp] theorem incEpoch_totalEpoch (t : Task) : t.incEpoch.totalEpoch = t.totalEpoch := rfl

@[simp] theorem incEpoch_currentEpoch (t : Task) :
    t.incEpoch.currentEpoch = t.currentEpoch + 1 := rfl

end Task

/-- What the schedulers write down about a task: `0: ready`, `1: running`, `2: finished`,
`3: angry`. -/
inductive TaskStatus where
  | ready
  | running
  | finished
  | angry
  deriving DecidableEq, Repr

/-- A task of one epoch with one worker. -/
def smallTask (id : ℕ) : Task := ⟨id, 1, 0, 1, .basic, false⟩

/-! ## Instances -/

/-- A copy of a task with the threads that run it; `threads` are `<pid, tid>` in the order of
`add_thread`, so that the place of a thread is its id in the instance. -/
structure Instance where
  task : Task
  threads : List (ℕ × ℕ)
  deriving DecidableEq, Repr

namespace Instance

/-- `get_id()`. -/
def id (instance_ : Instance) : ℕ := instance_.task.id

/-- `get_epoch()`. -/
def epoch (instance_ : Instance) : ℕ := instance_.task.currentEpoch

/-- All threads. -/
def tids (instance_ : Instance) : List ℕ := instance_.threads.map Prod.snd

/-- `get_threads(proc_id)`: the threads of a process, with their ids in the instance. -/
def getThreads (instance_ : Instance) (procId : ℕ) : List (ℕ × ℕ) :=
  instance_.threads.zipIdx.filterMap fun x => if x.1.1 = procId then some (x.1.2, x.2) else none

end Instance

/-- `instance_basic_setup`: an instance without threads; a basic task without a number of workers
gets one. -/
def instanceBasicSetup (task : Task) : Task :=
  if task.isBasic ∧ task.numWorkers = 0 then { task with numWorkers := 1 } else task

@[simp] theorem instanceBasicSetup_id (task : Task) : (instanceBasicSetup task).id = task.id := by
  unfold instanceBasicSetup
  split <;> rfl

@[simp] theorem instanceBasicSetup_currentEpoch (task : Task) :
    (instanceBasicSetup task).currentEpoch = task.currentEpoch := by
  unfold instanceBasicSetup
  split <;> rfl

@[simp] theorem instanceBasicSetup_type (task : Task) :
    (instanceBasicSetup task).type = task.type := by
  unfold instanceBasicSetup
  split <;> rfl

@[simp] theorem instanceBasicSetup_isLocal (task : Task) :
    (instanceBasicSetup task).isLocal = task.isLocal := by
  unfold instanceBasicSetup
  split <;> rfl

@[simp] theorem instanceBasicSetup_traverses (task : Task) :
    (instanceBasicSetup task).traverses = task.traverses := by
  unfold instanceBasicSetup
  split <;> rfl

end FlexPS.Scheduler
