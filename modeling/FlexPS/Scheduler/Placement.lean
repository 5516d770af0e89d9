import FlexPS.Scheduler.TaskScheduler
import Mathlib.Data.List.Dedup

/-!
# Placing instances

All schedulers have the available workers, the history of visits and the tracked threads.  They
place an instance on selected threads and write that down, and they take back the threads that
finish.

## Main definitions

* `Placement` — what all schedulers have.
* `Placement.place`, `Placement.finishThread` — an instance gets its threads, a thread is taken back.
* `Placement.Sound` — the placement gives account of the threads, and the history has an entry for
  every process.
* `Placement.Sound.place`, `Placement.Sound.finish` — both operations keep it.
* `Placement.Inv` — moreover, every instance has been issued for free threads.
* `Placement.Conserved` — what that means for the threads of the cluster.
-/

namespace FlexPS.Scheduler

open Lib AvailableWorkers

/-- `available_workers_`, the `HistoryManager` and `task_id_pid_tids_`. -/
structure Placement where
  availableWorkers : AvailableWorkers
  history : HistoryManager
  taskIdPidTids : Tracking

namespace Placement

variable (info : WorkerInfo)

/-- All workers are available. -/
def ofCluster : Placement where
  availableWorkers := AvailableWorkers.ofCluster info
  history := HistoryManager.start info.numProcesses
  taskIdPidTids := ∅

/-- `get_preferred_proc`. -/
def getPreferredProc (p : Placement) (taskId : ℕ) : List ℕ :=
  preferredProc (p.history.getTaskHistory taskId)

/-- `num_processes_` processes. -/
def allProc : List ℕ := List.range info.numProcesses

/-- The processes for an instance: all of them for a basic task that is not local, those that the
task has visited least for others. -/
def getCandidateProc (p : Placement) (taskId : ℕ) (task : Task) : List ℕ :=
  if task.isBasic ∧ task.isLocal = false then allProc info else p.getPreferredProc taskId

/-- Select threads for the task, and if there are any, make an instance of it, write them to the
history and track them, under the given id; `none` for an exception. -/
def place (d : Draw) (p : Placement) (taskId : ℕ) (task : Task) (candidateProc : List ℕ) :
    Option (Placement × Option Instance) := do
  let (pidTids, a) ← selectThreadsFromSubset d task (p.history.getTaskHistory task.id)
    p.availableWorkers info.numProcesses task.numWorkers candidateProc
  if pidTids = [] then some ({ p with availableWorkers := a }, none)
  else
    some (⟨a, p.history.updateHistory taskId pidTids, p.taskIdPidTids.track taskId pidTids⟩,
      some ⟨task, pidTids⟩)

/-- Untrack the thread and make it available; the flag says that the instance has no threads any
more. -/
def finishThread (p : Placement) (instanceId tid : ℕ) : Placement × Bool :=
  let procId := info.processId tid
  let untracked := p.taskIdPidTids.untrack instanceId procId tid
  (⟨p.availableWorkers.addWorker procId tid, p.history, untracked.1⟩, untracked.2)

/-- `task_id_pid_tids_.erase(instance_id)`. -/
def dropInstance (p : Placement) (instanceId : ℕ) : Placement :=
  { p with taskIdPidTids := p.taskIdPidTids.drop instanceId }

/-- `task_to_instance`: place the task on the processes that it has visited least, or throw. -/
def taskToInstance (d : Draw) (p : Placement) (task : Task) :
    Option (Placement × List SchedEvent) := do
  let instance_ := instanceBasicSetup task
  let (p', placed) ← place info d p instance_.id instance_ (p.getPreferredProc instance_.id)
  match placed with
  | some instance_ => some (p', [.issued instance_])
  | none => some (p', [.refused])

end Placement

/-! ## The history -/

/-- The history counts the visits of every process. -/
def HistoryManager.Sized (info : WorkerInfo) (h : HistoryManager) : Prop :=
  ∀ id, (h.getTaskHistory id).length = info.numProcesses

theorem HistoryManager.sized_start (info : WorkerInfo) : (start info.numProcesses).Sized info :=
  fun _ => List.length_replicate ..

theorem HistoryManager.getTaskHistory_updateHistory (h : HistoryManager) (id id' : ℕ)
    (pidTids : List (ℕ × ℕ)) : (h.updateHistory id pidTids).getTaskHistory id' =
      if id' = id then (h.getTaskHistory id).mapIdx fun pid n =>
        if pid ∈ pidTids.map Prod.fst then n + 1 else n
      else h.getTaskHistory id' := by
  unfold updateHistory getTaskHistory
  split
  · next heq =>
      subst heq
      rw [Dict.getD_set_self]
      simp only [List.mem_dedup]
  · next hne => rw [Dict.getD_set_of_ne _ hne]

theorem HistoryManager.Sized.update {info : WorkerInfo} {h : HistoryManager} (hsized : h.Sized info)
    (id : ℕ) (pidTids : List (ℕ × ℕ)) : (h.updateHistory id pidTids).Sized info := by
  intro id'
  rw [getTaskHistory_updateHistory]
  split
  · rw [List.length_mapIdx, hsized]
  · exact hsized id'

theorem nodup_preferredProc (history : List ℕ) : (preferredProc history).Nodup :=
  List.nodup_range.filter _

theorem lt_of_mem_preferredProc {history : List ℕ} {pid : ℕ} (h : pid ∈ preferredProc history) :
    pid < history.length :=
  List.mem_range.mp (List.mem_filter.mp h).1

namespace Placement

/-! ## Keeping the account -/

/-- The placement gives account of the threads. -/
structure Sound (info : WorkerInfo) (out : List SchedEvent) (p : Placement) : Prop where
  accounts : Accounts info out p.availableWorkers p.taskIdPidTids
  sized : p.history.Sized info

variable {info : WorkerInfo} {out : List SchedEvent} {p p' : Placement} {d : Draw} {id taskId : ℕ}
  {task : Task} {candidateProc : List ℕ}

theorem sound_ofCluster (info : WorkerInfo) : Sound info [] (ofCluster info) :=
  ⟨accounts_init info, HistoryManager.sized_start info⟩

/-- Processes that instances may be placed on. -/
structure Candidates (info : WorkerInfo) (candidateProc : List ℕ) : Prop where
  nodup : candidateProc.Nodup
  lt : ∀ pid ∈ candidateProc, pid < info.numProcesses

theorem candidates_allProc (info : WorkerInfo) : Candidates info (allProc info) :=
  ⟨List.nodup_range, fun _ => List.mem_range.mp⟩

theorem Sound.candidates (h : Sound info out p) (id : ℕ) :
    Candidates info (p.getPreferredProc id) :=
  ⟨nodup_preferredProc _, fun _ hpid => h.sized id ▸ lt_of_mem_preferredProc hpid⟩

theorem Sound.getCandidateProc (h : Sound info out p) (id : ℕ) (task : Task) :
    Candidates info (p.getCandidateProc info id task) := by
  unfold Placement.getCandidateProc
  split
  · exact candidates_allProc info
  · exact h.candidates id

theorem Candidates.filter (h : Candidates info candidateProc) (q : ℕ → Bool) :
    Candidates info (candidateProc.filter q) :=
  ⟨h.nodup.filter q, fun pid hpid => h.lt pid (List.mem_filter.mp hpid).1⟩

theorem Sound.snoc_of_none (h : Sound info out p) {e : SchedEvent} (he : e.entry = none) :
    Sound info (out ++ [e]) p :=
  ⟨h.accounts.snoc_of_none he, h.sized⟩

/-- The threads of the task are there. -/
def CanPlace (info : WorkerInfo) (p : Placement) (task : Task) (candidateProc : List ℕ) : Prop :=
  Fits p.availableWorkers (p.history.getTaskHistory task.id) info.numProcesses task.numWorkers
    candidateProc task

/-- An instance of the task has been placed on free threads. -/
structure Placed (info : WorkerInfo) (out : List SchedEvent) (p : Placement) (task : Task)
    (candidateProc : List ℕ) (instance_ : Instance) (p' : Placement) : Prop where
  task_eq : instance_.task = task
  ne_nil : instance_.threads ≠ []
  nodup : instance_.threads.Nodup
  free : ∀ th ∈ instance_.threads, th.2 ∈ p.availableWorkers.tids th.1
  pids : task.isConfigurable = false → ∀ th ∈ instance_.threads, th.1 ∈ candidateProc
  sound : Sound info (out ++ [.issued instance_]) p'
  tracked : p'.taskIdPidTids = p.taskIdPidTids.track task.id instance_.threads
  canPlace : CanPlace info p task candidateProc
  history_eq : p'.history = p.history.updateHistory task.id instance_.threads
  oneProcess : task.traverses = true → ∃ pid,
    (pid ∈ candidateProc ∨ pid ∈ potentialWorkers (p.history.getTaskHistory task.id)) ∧
    ∀ th ∈ instance_.threads, th.1 = pid

/-- No instance could be placed, and nothing has changed. -/
structure NotPlaced (info : WorkerInfo) (out : List SchedEvent) (p : Placement) (task : Task)
    (candidateProc : List ℕ) (p' : Placement) : Prop where
  sound : Sound info out p'
  available : Takes p.availableWorkers [] p'.availableWorkers
  history_eq : p'.history = p.history
  tracked : p'.taskIdPidTids = p.taskIdPidTids
  not_canPlace : ¬ CanPlace info p task candidateProc

/-- What `place` has done. -/
def Outcome (info : WorkerInfo) (out : List SchedEvent) (p : Placement) (task : Task)
    (candidateProc : List ℕ) (p' : Placement) : Option Instance → Prop
  | some instance_ => Placed info out p task candidateProc instance_ p'
  | none => NotPlaced info out p task candidateProc p'

/-- **Placing an instance** under its own id keeps the account. -/
theorem Sound.place (h : Sound info out p) (hcand : Candidates info candidateProc)
    (hid : task.id = taskId) {r : Option Instance}
    (hplace : place info d p taskId task candidateProc = some (p', r)) :
    Outcome info out p task candidateProc p' r := by
  subst hid
  obtain ⟨⟨pidTids, a⟩, hsel, hplace⟩ := Option.bind_eq_some_iff.mp hplace
  obtain ⟨htakes, hpids, hfits⟩ :=
    selectThreadsFromSubset_spec h.accounts.agree hcand.nodup hcand.lt hsel
  simp only at hplace
  split at hplace
  · next hnil =>
      subst hnil
      obtain ⟨rfl, rfl⟩ := Prod.mk.inj (Option.some.inj hplace)
      exact ⟨⟨h.accounts.keep htakes, h.sized⟩, htakes, rfl, rfl, fun hfit => hfits.mpr hfit rfl⟩
  · next hne =>
      obtain ⟨rfl, rfl⟩ := Prod.mk.inj (Option.some.inj hplace)
      exact ⟨rfl, hne, htakes.nodup, htakes.free, hpids,
        ⟨h.accounts.issue htakes, h.sized.update _ _⟩, rfl, hfits.mp hne, rfl, fun htraverses =>
          selectThreadsFromSubset_traverses h.accounts.agree htraverses hne hsel⟩

/-- **Taking a thread back** keeps the account, and the flag says that the instance is done. -/
theorem Sound.finish (h : Sound info out p) {id tid : ℕ} (hid : id ∈ holders out tid) :
    Sound info (out ++ [.finished id tid]) (p.finishThread info id tid).1 ∧
    ((p.finishThread info id tid).2 = true ↔ ¬ Busy (out ++ [.finished id tid]) id) := by
  have hsound := h.accounts.finish hid
  refine ⟨⟨hsound, h.sized⟩, ?_⟩
  rw [← hsound.running_iff]
  exact h.accounts.tight.untrack_done ..

/-- A done instance is removed. -/
theorem Sound.dropInstance (h : Sound info out p) (hid : ¬ Busy out id) :
    Sound info out (p.dropInstance id) :=
  ⟨h.accounts.drop fun hrun => hid ((h.accounts.running_iff id).mp hrun), h.sized⟩

/-! ## Never double-booking -/

/-- An instance is issued for free threads of the cluster, each once and with its process. -/
def SafeIssue (info : WorkerInfo) (before : List SchedEvent) (e : SchedEvent) : Prop :=
  ∀ instance_, e = .issued instance_ →
    instance_.threads ≠ [] ∧ instance_.tids.Nodup ∧
    ∀ th ∈ instance_.threads, th.1 = info.processId th.2 ∧ th.2 ∈ info.globalTids ∧
      holders before th.2 = []

/-- The placement gives account of the threads, and has never given a thread to two instances. -/
structure Inv (info : WorkerInfo) (out : List SchedEvent) (p : Placement) : Prop where
  sound : Sound info out p
  safe : Throughout (SafeIssue info) out

theorem inv_ofCluster (info : WorkerInfo) : Inv info [] (ofCluster info) :=
  ⟨sound_ofCluster info, throughout_nil _⟩

theorem Inv.snoc_of_none (h : Inv info out p) {e : SchedEvent} (he : e.entry = none) :
    Inv info (out ++ [e]) p := by
  refine ⟨h.sound.snoc_of_none he, throughout_snoc.mpr ⟨h.safe, fun instance_ heq => ?_⟩⟩
  subst heq
  cases he

/-- The threads of a new instance are free. -/
theorem safeIssue_of_free (h : Sound info out p) {instance_ : Instance}
    (hne : instance_.threads ≠ []) (hnodup : instance_.threads.Nodup)
    (hfree : ∀ th ∈ instance_.threads, th.2 ∈ p.availableWorkers.tids th.1) :
    SafeIssue info out (.issued instance_) := by
  rintro _ ⟨⟩
  have hproc : ∀ th ∈ instance_.threads, th.1 = info.processId th.2 :=
    fun th hth => h.accounts.free_proc th.1 th.2 (hfree th hth)
  refine ⟨hne, hnodup.map_on fun th hth th' hth' heq => ?_, fun th hth => ?_⟩
  · exact Prod.ext ((hproc th hth).trans ((congrArg _ heq).trans (hproc th' hth').symm)) heq
  · exact ⟨hproc th hth, h.accounts.free_mem (hfree th hth)⟩

/-- An instance is issued for threads that have been taken from the available ones. -/
theorem Inv.issue (h : Inv info out p) {pidTids : List (ℕ × ℕ)} {a : AvailableWorkers}
    (htakes : Takes p.availableWorkers pidTids a) (hne : pidTids ≠ []) :
    Inv info (out ++ [.issued ⟨task, pidTids⟩])
      ⟨a, p.history.updateHistory task.id pidTids, p.taskIdPidTids.track task.id pidTids⟩ := by
  refine ⟨⟨h.sound.accounts.issue htakes, h.sound.sized.update _ _⟩,
    throughout_snoc.mpr ⟨h.safe, ?_⟩⟩
  exact safeIssue_of_free h.sound hne htakes.nodup htakes.free

theorem Placed.inv {instance_ : Instance}
    (hplaced : Placed info out p task candidateProc instance_ p') (h : Inv info out p) :
    Inv info (out ++ [.issued instance_]) p' :=
  ⟨hplaced.sound, throughout_snoc.mpr ⟨h.safe,
    safeIssue_of_free h.sound hplaced.ne_nil hplaced.nodup hplaced.free⟩⟩

theorem NotPlaced.inv (hnot : NotPlaced info out p task candidateProc p') (h : Inv info out p) :
    Inv info out p' :=
  ⟨hnot.sound, h.safe⟩

theorem Inv.finish (h : Inv info out p) {id tid : ℕ} (hid : id ∈ holders out tid) :
    Inv info (out ++ [.finished id tid]) (p.finishThread info id tid).1 :=
  ⟨(h.sound.finish hid).1, throughout_snoc.mpr ⟨h.safe, nofun⟩⟩

theorem Inv.dropInstance (h : Inv info out p) (hid : ¬ Busy out id) :
    Inv info out (p.dropInstance id) :=
  ⟨h.sound.dropInstance hid, h.safe⟩

/-- `task_to_instance` issues an instance, or throws. -/
theorem Sound.taskToInstance (h : Sound info out p) {o : List SchedEvent}
    (hstep : p.taskToInstance info d task = some (p', o)) :
    (∃ instance_, o = [.issued instance_] ∧ Placed info out p (instanceBasicSetup task)
      (p.getPreferredProc task.id) instance_ p') ∨
    (o = [.refused] ∧ NotPlaced info out p (instanceBasicSetup task)
      (p.getPreferredProc task.id) p') := by
  obtain ⟨⟨p₁, placed⟩, hplace, hstep⟩ := Option.bind_eq_some_iff.mp hstep
  have hspec := h.place (h.candidates _) rfl hplace
  rw [instanceBasicSetup_id] at hspec
  simp only at hstep
  cases placed with
  | some instance_ =>
      obtain ⟨rfl, rfl⟩ := Prod.mk.inj (Option.some.inj hstep)
      exact .inl ⟨instance_, rfl, hspec⟩
  | none =>
      obtain ⟨rfl, rfl⟩ := Prod.mk.inj (Option.some.inj hstep)
      exact .inr ⟨rfl, hspec⟩

/-! ## Conservation -/

/-- The thread is available. -/
def Free (p : Placement) (tid : ℕ) : Prop := ∃ pid, tid ∈ p.availableWorkers.tids pid

/-- The thread is tracked for the instance. -/
def Tracks (p : Placement) (id tid : ℕ) : Prop := ∃ pid, tid ∈ p.taskIdPidTids.tids id pid

/-- **Threads are conserved**: they are divided into the available ones and those of each running
instance, both views of the available ones agree, and no thread has been given to two. -/
structure Conserved (info : WorkerInfo) (out : List SchedEvent) (p : Placement) : Prop where
  partition : ∀ tid ∈ info.globalTids,
    (p.Free tid ∧ ∀ id, ¬ p.Tracks id tid) ∨ (¬ p.Free tid ∧ ∃! id, p.Tracks id tid)
  cluster : ∀ tid, (p.Free tid ∨ ∃ id, p.Tracks id tid) → tid ∈ info.globalTids
  running : ∀ id tid, p.Tracks id tid ↔ id ∈ holders out tid
  one : ∀ tid, (holders out tid).length ≤ 1
  views : ∀ tid pid, (tid, pid) ∈ p.availableWorkers.workers ↔ tid ∈ p.availableWorkers.tids pid
  process : ∀ tid pid, tid ∈ p.availableWorkers.tids pid → pid = info.processId tid
  issued : Throughout (SafeIssue info) out

theorem Inv.conserved (h : Inv info out p) : Conserved info out p := by
  have haccounts := h.sound.accounts
  have hfree : ∀ tid, p.Free tid ↔ tid ∈ p.availableWorkers.tids (info.processId tid) :=
    fun tid => ⟨fun ⟨pid, htid⟩ => haccounts.free_proc pid tid htid ▸ htid, fun htid => ⟨_, htid⟩⟩
  have htracks : ∀ id tid, p.Tracks id tid ↔ tid ∈ p.taskIdPidTids.tids id (info.processId tid) :=
    fun id tid => ⟨fun ⟨pid, htid⟩ => haccounts.held_proc id pid tid htid ▸ htid,
      fun htid => ⟨_, htid⟩⟩
  refine ⟨fun tid htid => ?_, ?_, fun id tid => ?_, haccounts.books.one, haccounts.agree.mem_iff,
    fun tid pid => haccounts.free_proc pid tid, h.safe⟩
  · simp only [hfree, htracks]
    exact haccounts.books.partition htid
  · rintro tid (⟨pid, htid⟩ | ⟨id, pid, htid⟩)
    · exact (haccounts.free_mem htid).1
    · exact (haccounts.held_mem htid).1
  · exact ⟨fun ⟨pid, htid⟩ => (haccounts.held_mem htid).2, fun hid => ⟨_,
      (haccounts.mem_holders (haccounts.cluster tid id hid) id).mp hid⟩⟩

end Placement

end FlexPS.Scheduler
