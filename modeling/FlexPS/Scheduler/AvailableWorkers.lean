import FlexPS.Lib.Dict
import FlexPS.Scheduler.Task

/-!
# The available workers

`AvailableWorkers` keeps the free threads twice: as pairs of a thread and its process, and as the
set of threads of every process.  Threads are taken by five routines, which choose them at random,
in the same number from every process, from the first process that has enough, from a given
process, and from a process that a task has visited least.

## Main definitions

* `Draw` — what the routines leave to chance.
* `HistoryManager` — how often every task has visited every process.
* `AvailableWorkers` and its routines `getWorkersPerProcess`, `getWorkers`, `getLocalWorkers`,
  `getTraverseWorkers`, `getWorkersExactProcess`.
* `Agree` — both views have the same threads.
-/

namespace FlexPS.Scheduler

open Lib

/-- What is left to chance: the values of `rand()`, given the number of workers that are left, the
orders in which the elements of hash tables come, and how `std::sort` arranges equals. -/
structure Draw where
  rand : ℕ → ℕ
  workersOrder : List (ℕ × ℕ) → List (ℕ × ℕ)
  tidsOrder : List ℕ → List ℕ
  procsOrder : List ((_ : ℕ) × List ℕ) → List ((_ : ℕ) × List ℕ)
  tiesOrder : List (ℕ × ℕ) → List (ℕ × ℕ)
  workers_perm : ∀ l, (workersOrder l).Perm l
  tids_perm : ∀ l, (tidsOrder l).Perm l
  procs_perm : ∀ l, (procsOrder l).Perm l
  ties_perm : ∀ l, (tiesOrder l).Perm l

/-- Everything comes in the order of insertion. -/
def Draw.plain : Draw where
  rand _ := 0
  workersOrder := id
  tidsOrder := id
  procsOrder := id
  tiesOrder := id
  workers_perm _ := .rfl
  tids_perm _ := .rfl
  procs_perm _ := .rfl
  ties_perm _ := .rfl

/-! ## The history -/

/-- `HistoryManager`. -/
structure HistoryManager where
  numProcesses : ℕ
  history : Dict ℕ (List ℕ)

namespace HistoryManager

/-- `start`. -/
def start (numProcesses : ℕ) : HistoryManager := ⟨numProcesses, ∅⟩

/-- `get_task_history`; a task that has not run has visited nothing. -/
def getTaskHistory (h : HistoryManager) (taskId : ℕ) : List ℕ :=
  h.history.getD taskId (List.replicate h.numProcesses 0)

/-- `update_history`: one more visit of every process in the list. -/
def updateHistory (h : HistoryManager) (taskId : ℕ) (pidTids : List (ℕ × ℕ)) : HistoryManager :=
  let pids := (pidTids.map Prod.fst).dedup
  let visits := (h.getTaskHistory taskId).mapIdx fun pid n => if pid ∈ pids then n + 1 else n
  { h with history := h.history.set taskId visits }

end HistoryManager

/-- `get_preferred_proc`: the processes that are visited least. -/
def preferredProc (history : List ℕ) : List ℕ :=
  let smallest := history.foldl (fun smallest n => if n < smallest then n else smallest) (2 ^ 31 - 1)
  (List.range history.length).filter fun i => history[i]? = some smallest

/-! ## The workers -/

/-- `AvailableWorkers`: `workers_` has `<tid, pid>`. -/
structure AvailableWorkers where
  workers : List (ℕ × ℕ)
  pidTids : Dict ℕ (List ℕ)

namespace AvailableWorkers

/-- `pid_tids_[pid]`. -/
def tids (a : AvailableWorkers) (pid : ℕ) : List ℕ := a.pidTids.getD pid []

/-- Nobody. -/
def empty : AvailableWorkers := ⟨[], ∅⟩

/-- `add_worker`. -/
def addWorker (a : AvailableWorkers) (pid tid : ℕ) : AvailableWorkers where
  workers := a.workers.insert (tid, pid)
  pidTids := a.pidTids.set pid ((a.tids pid).insert tid)

/-- All workers of the cluster, as the constructors of the schedulers add them. -/
def ofCluster (info : WorkerInfo) : AvailableWorkers :=
  info.globalTids.foldl (fun a tid => a.addWorker (info.processId tid) tid) empty

/-- `get_num_available_local_workers`. -/
def numAvailableLocalWorkers (a : AvailableWorkers) (pid : ℕ) : ℕ := (a.tids pid).length

/-- Erase the selected `<pid, tid>` from `workers_`. -/
def eraseWorkers (workers : List (ℕ × ℕ)) (selected : List (ℕ × ℕ)) : List (ℕ × ℕ) :=
  selected.foldl (fun workers p => workers.erase (p.2, p.1)) workers

/-- Erase the selected `<pid, tid>` from `pid_tids_`. -/
def erasePidTids (pidTids : Dict ℕ (List ℕ)) (selected : List (ℕ × ℕ)) : Dict ℕ (List ℕ) :=
  selected.foldl (fun m p => m.set p.1 ((m.getD p.1 []).erase p.2)) pidTids

/-- Erase them from both. -/
def eraseSelected (a : AvailableWorkers) (selected : List (ℕ × ℕ)) : AvailableWorkers :=
  ⟨eraseWorkers a.workers selected, erasePidTids a.pidTids selected⟩

/-- The local `pid_tids_map`: the threads of `workers_` by process. -/
def pidTidsMap (d : Draw) (a : AvailableWorkers) (pid : ℕ) : List ℕ :=
  ((d.workersOrder a.workers).filter fun w => w.2 = pid).map Prod.fst

/-- `get_workers_per_process`. -/
def getWorkersPerProcess (d : Draw) (a : AvailableWorkers) (numThreadPerWorker numProcesses : ℕ) :
    List (ℕ × ℕ) × AvailableWorkers :=
  if ∃ pid < numProcesses, (a.pidTidsMap d pid).length < numThreadPerWorker then ([], a)
  else
    let selected := (List.range numProcesses).flatMap fun pid =>
      ((a.pidTidsMap d pid).take numThreadPerWorker).map fun tid => (pid, tid)
    (selected, a.eraseSelected selected)

/-- The loop of `get_workers`: take a random element of `workers_` that many times. -/
def drawWorkers (d : Draw) : ℕ → List (ℕ × ℕ) → List (ℕ × ℕ) × List (ℕ × ℕ)
  | 0, workers => ([], workers)
  | n + 1, workers =>
      match (d.workersOrder workers)[d.rand workers.length % workers.length]? with
      | none => ([], workers)
      | some w =>
          let rest := drawWorkers d n (workers.erase w)
          ((w.2, w.1) :: rest.1, rest.2)

/-- The order of `std::set<std::pair<int, int>>`. -/
def pairLe (p q : ℕ × ℕ) : Prop := p.1 < q.1 ∨ p.1 = q.1 ∧ p.2 ≤ q.2

instance decidablePairLe (p q : ℕ × ℕ) : Decidable (pairLe p q) := by
  unfold pairLe
  infer_instance

/-- `get_workers`. -/
def getWorkers (d : Draw) (a : AvailableWorkers) (requiredNumWorkers : ℕ) :
    List (ℕ × ℕ) × AvailableWorkers :=
  if a.workers.length < requiredNumWorkers then ([], a)
  else
    let drawn := drawWorkers d requiredNumWorkers a.workers
    let selected := drawn.1.insertionSort pairLe
    (selected, ⟨drawn.2, erasePidTids a.pidTids selected⟩)

/-- `get_local_workers`. -/
def getLocalWorkers (d : Draw) (a : AvailableWorkers) (requiredNumWorkers : ℕ) :
    List (ℕ × ℕ) × AvailableWorkers :=
  match (d.procsOrder a.pidTids.entries).find? fun kv => requiredNumWorkers ≤ kv.2.length with
  | none => ([], a)
  | some kv =>
      let tids := d.tidsOrder kv.2
      let selected := (tids.take requiredNumWorkers).map fun tid => (kv.1, tid)
      (selected, ⟨eraseWorkers a.workers selected,
        a.pidTids.set kv.1 (tids.drop requiredNumWorkers)⟩)

/-- `get_workers_exact_process`. -/
def getWorkersExactProcess (d : Draw) (a : AvailableWorkers) (requiredNumWorkers exactProcess : ℕ) :
    List (ℕ × ℕ) × AvailableWorkers :=
  if (a.pidTidsMap d exactProcess).length < requiredNumWorkers then ([], a)
  else
    let selected :=
      ((a.pidTidsMap d exactProcess).take requiredNumWorkers).map fun tid => (exactProcess, tid)
    (selected, a.eraseSelected selected)

/-- The first of the processes that has enough. -/
def getWorkersOfFirst (d : Draw) (a : AvailableWorkers) (requiredNumWorkers : ℕ) :
    List ℕ → List (ℕ × ℕ) × AvailableWorkers
  | [] => ([], a)
  | pid :: pids =>
      let taken := a.getWorkersExactProcess d requiredNumWorkers pid
      if taken.1 = [] then getWorkersOfFirst d a requiredNumWorkers pids else taken

/-- The least visited processes, as `get_traverse_workers` finds them. -/
def potentialWorkers (taskHistory : List ℕ) : List ℕ :=
  let targetMin := taskHistory.foldl (fun m t => if t < m then t else m) (taskHistory.headD 0)
  (List.range taskHistory.length).filter fun i => taskHistory[i]? = some targetMin

/-- `get_traverse_workers`. -/
def getTraverseWorkers (d : Draw) (a : AvailableWorkers) (taskHistory : List ℕ)
    (requiredNumWorkers : ℕ) : List (ℕ × ℕ) × AvailableWorkers :=
  a.getWorkersOfFirst d requiredNumWorkers (potentialWorkers taskHistory)

/-! ## Both views -/

/-- The two views have the same threads. -/
structure Agree (a : AvailableWorkers) : Prop where
  workers_nodup : a.workers.Nodup
  tids_nodup : ∀ pid, (a.tids pid).Nodup
  mem_iff : ∀ tid pid, (tid, pid) ∈ a.workers ↔ tid ∈ a.tids pid

@[simp] theorem tids_addWorker_self (a : AvailableWorkers) (pid tid : ℕ) :
    (a.addWorker pid tid).tids pid = (a.tids pid).insert tid :=
  Dict.getD_set_self _ _ _ _

theorem tids_addWorker_of_ne (a : AvailableWorkers) {pid pid' : ℕ} (h : pid' ≠ pid) (tid : ℕ) :
    (a.addWorker pid tid).tids pid' = a.tids pid' :=
  Dict.getD_set_of_ne _ h _ _

theorem mem_tids_addWorker {a : AvailableWorkers} {pid tid pid' tid' : ℕ} :
    tid' ∈ (a.addWorker pid tid).tids pid' ↔ (tid' = tid ∧ pid' = pid) ∨ tid' ∈ a.tids pid' := by
  by_cases h : pid' = pid
  · subst h
    rw [tids_addWorker_self, List.mem_insert_iff]
    simp
  · rw [tids_addWorker_of_ne _ h]
    simp [h]

theorem mem_workers_addWorker {a : AvailableWorkers} {pid tid : ℕ} {w : ℕ × ℕ} :
    w ∈ (a.addWorker pid tid).workers ↔ w = (tid, pid) ∨ w ∈ a.workers :=
  List.mem_insert_iff

theorem agree_empty : empty.Agree where
  workers_nodup := List.nodup_nil
  tids_nodup _ := List.nodup_nil
  mem_iff _ _ := by simp [empty, tids]

/-- Adding a worker adds it to both. -/
theorem Agree.addWorker {a : AvailableWorkers} (h : a.Agree) (pid tid : ℕ) :
    (a.addWorker pid tid).Agree where
  workers_nodup := h.workers_nodup.insert
  tids_nodup pid' := by
    by_cases hpid : pid' = pid
    · subst hpid
      rw [tids_addWorker_self]
      exact (h.tids_nodup pid').insert
    · rw [tids_addWorker_of_ne _ hpid]
      exact h.tids_nodup pid'
  mem_iff tid' pid' := by
    rw [mem_workers_addWorker, mem_tids_addWorker, h.mem_iff, Prod.mk.injEq]

/-- The constructors of the schedulers make all workers available. -/
theorem ofCluster_spec (info : WorkerInfo) : (ofCluster info).Agree ∧
    ∀ tid pid, tid ∈ (ofCluster info).tids pid ↔ tid ∈ info.globalTids ∧ pid = info.processId tid := by
  have hfold : ∀ (l : List ℕ) (a : AvailableWorkers), a.Agree →
      (l.foldl (fun a tid => a.addWorker (info.processId tid) tid) a).Agree ∧
      ∀ tid pid, tid ∈ (l.foldl (fun a tid => a.addWorker (info.processId tid) tid) a).tids pid ↔
        (tid ∈ l ∧ pid = info.processId tid) ∨ tid ∈ a.tids pid := by
    intro l
    induction l with
    | nil => exact fun a ha => ⟨ha, by simp⟩
    | cons t l ih =>
        intro a ha
        obtain ⟨hagree, hmem⟩ := ih (a.addWorker (info.processId t) t) (ha.addWorker _ _)
        refine ⟨hagree, fun tid pid => ?_⟩
        rw [List.foldl_cons, hmem, mem_tids_addWorker, List.mem_cons]
        constructor
        · rintro (⟨hl, hp⟩ | ⟨rfl, hp⟩ | ha)
          · exact .inl ⟨.inr hl, hp⟩
          · exact .inl ⟨.inl rfl, hp⟩
          · exact .inr ha
        · rintro (⟨rfl | hl, hp⟩ | ha)
          · exact .inr (.inl ⟨rfl, hp⟩)
          · exact .inl ⟨hl, hp⟩
          · exact .inr (.inr ha)
  obtain ⟨hagree, hmem⟩ := hfold info.globalTids empty agree_empty
  refine ⟨hagree, fun tid pid => ?_⟩
  have hempty : tid ∉ empty.tids pid := by simp [empty, tids]
  rw [ofCluster, hmem]
  simp [hempty]

end AvailableWorkers

end FlexPS.Scheduler
