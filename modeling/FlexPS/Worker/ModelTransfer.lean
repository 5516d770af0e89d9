import FlexPS.Worker.MainLoop

/-!
# Direct model transfer

A task may hand its model over from epoch to epoch.  The leader of an instance dumps the model into
the `ModelTransferStore` of its process; when the cluster manager sends the next instance, it tells
the worker of that process, whose `ModelTransferManager` pops the model and sends it to the mailbox of
the thread that leads the next instance, which loads it from there.

## Main definitions

* `Instance.leader`, `sendLastInstance`, `sendInstances` — what the cluster manager sends.
* `Transfers` — the cluster manager, the processes, and everything that models pass through.
* `Transfers.forward`, `Transfers.send`, `Transfers.load`, `Transfers.dump` — the steps of the worker,
  of the model transfer manager and of the leaders.
* `Transfers.step`, `TransferRun` — all steps, and what they can lead to.
-/

namespace FlexPS.Scheduler

/-- The first thread of an instance, with its process: `get_cluster()` has to have one process, and the
id of the thread in the instance has to be `0`. -/
def Instance.leader (instance_ : Instance) : Option (ℕ × ℕ) :=
  match (instance_.threads.map Prod.fst).dedup with
  | [pid] =>
      match instance_.getThreads pid with
      | (tid, 0) :: _ => some (pid, tid)
      | _ => none
  | _ => none

end FlexPS.Scheduler

namespace FlexPS.Worker

open Lib Scheduler

/-- `kClusterManagerDirectTransferModel`, and `kCmdTask` after it: the thread that is sent the model,
and the task. -/
structure Transfer where
  dst : ℕ
  taskId : ℕ
  deriving DecidableEq

section ClusterManager

variable (info : WorkerInfo) (dmt : ℕ → Bool)

/-- `send_last_instance`, with the processes that are sent something; `dmt` is `dmt_` of the task, and
`none` is a failed assertion. -/
def sendLastInstance (last : ℕ → Option Instance) (instance_ : Instance) :
    Option (List (ℕ × Transfer)) :=
  if instance_.task.isLocal = false ∨ dmt instance_.id = false then some []
  else if instance_.epoch = 0 then some []
  else do
    let src ← (← last instance_.id).leader
    let dst ← instance_.leader
    some [(info.processId src.2, ⟨dst.2, instance_.id⟩)]

/-- A round of the loop of `send_instances`: `send_last_instance`, and then `set_last_instance`. -/
def sendInstances (last : ℕ → Option Instance) :
    ClusterEvent → Option ((ℕ → Option Instance) × List (ℕ × Transfer))
  | .scheduled (.issued instance_) =>
      (sendLastInstance info dmt last instance_).map fun transfers =>
        (Function.update last instance_.id (some instance_), transfers)
  | _ => some (last, [])

end ClusterManager

/-- What the leader of an instance has done: nothing, `Load`, or `Dump`. -/
inductive Stage (M : Type) where
  | fresh
  | working (model : M)
  | dumped

/-- What is seen: what the cluster manager does, and the models that leaders load and dump. -/
inductive TransferEvent (M : Type) where
  | cluster (e : ClusterEvent)
  | loaded (taskId epoch : ℕ) (model : M)
  | dumped (taskId epoch : ℕ) (model : M)

/-- The cluster manager and the processes, with `last_instance_`, the messages about transfers on the
way to each worker, and from it to its `ModelTransferManager`, the `ModelTransferStore` of each
process, the mailbox of each thread, and the leaders of the instances on each process. -/
structure Transfers (σ M : Type) where
  system : System σ
  lastInstance : ℕ → Option Instance
  signals : ℕ → List Transfer
  commands : ℕ → List Transfer
  store : ℕ → ℕ → Option M
  mailbox : ℕ → List M
  leaders : ℕ → ℕ → Option (Instance × Stage M)

/-- The steps: those of the cluster manager and the processes, a message about a transfer that the
worker receives, one that the model transfer manager receives, `Load`, with what is in the `KVStore`,
and `Dump`, with what the model has become. -/
inductive TransferMove (M : Type) where
  | system (i : Move)
  | forward (pid : ℕ)
  | send (pid : ℕ)
  | load (pid taskId : ℕ) (stored : M)
  | dump (pid taskId : ℕ) (model : M)

/-- A table with one more entry. -/
def updateEntry {α : Type} (f : ℕ → ℕ → α) (i j : ℕ) (a : α) : ℕ → ℕ → α :=
  Function.update f i (Function.update (f i) j a)

theorem updateEntry_apply {α : Type} (f : ℕ → ℕ → α) (i j : ℕ) (a : α) (i' j' : ℕ) :
    updateEntry f i j a i' j' = if i' = i ∧ j' = j then a else f i' j' := by
  rw [updateEntry, Function.update_apply]
  split
  · next hi =>
      subst hi
      rw [Function.update_apply]
      simp only [true_and]
  · next hi => rw [if_neg fun heq => hi heq.1]

/-- The column of the entry. -/
theorem updateEntry_self {α : Type} (f : ℕ → ℕ → α) (i j : ℕ) (a : α) :
    (fun i' => updateEntry f i j a i' j) = Function.update (fun i' => f i' j) i a := by
  funext i'
  rw [updateEntry_apply, Function.update_apply]
  simp only [and_true]

theorem updateEntry_of_ne {α : Type} {j j' : ℕ} (hj : j' ≠ j) (f : ℕ → ℕ → α) (i : ℕ) (a : α) :
    (fun i' => updateEntry f i j a i' j') = fun i' => f i' j' := by
  funext i'
  rw [updateEntry_apply, if_neg fun heq => hj heq.2]

namespace Transfers

variable {σ M : Type} (S : TaskScheduler σ) {info : WorkerInfo} (ids : LocalIds info)
  (dmt : ℕ → Bool)

/-- Nothing has happened. -/
def start (s₀ : σ) (countThreshold : ℕ) : Transfers σ M :=
  ⟨.start s₀ countThreshold, fun _ => none, fun _ => [], fun _ => [], fun _ _ => none, fun _ => [],
    fun _ _ => none⟩

/-- The thread comes to its end: when its task hands its model over, the leader has dumped it, and all
threads wait for that. -/
def mayFinish (x : Transfers σ M) (pid : ℕ) (th : ℕ × ℕ) : Bool :=
  !dmt th.1 || match x.leaders pid th.1 with
    | some (_, .dumped) => true
    | _ => false

/-- The step is not one of a thread that waits. -/
def mayStep (x : Transfers σ M) : Move → Bool
  | .complete pid n => ((x.system.processes pid).running[n]?.map (x.mayFinish dmt pid)).getD true
  | _ => true

/-- `run_instance` starts the leader, if some threads of the instance are on the process. -/
def startLeader (x : Transfers σ M) : Move → ℕ → ℕ → Option (Instance × Stage M)
  | .receive pid =>
      match (x.system.processes pid).inbox with
      | .task instance_ :: _ =>
          if instance_.localTids pid = [] then x.leaders
          else updateEntry x.leaders pid instance_.id (some (instance_, .fresh))
      | _ => x.leaders
  | _ => x.leaders

/-- The cluster manager has sent messages about transfers. -/
def signal (signals : ℕ → List Transfer) (transfers : List (ℕ × Transfer)) (pid : ℕ) :
    List Transfer :=
  signals pid ++ (transfers.filter (·.1 = pid)).map Prod.snd

/-- The worker receives `kClusterManagerDirectTransferModel`: `SendTask`. -/
def forward (x : Transfers σ M) (pid : ℕ) : Option (Transfers σ M) :=
  if (x.system.processes pid).phase = .waiting then
    match x.signals pid with
    | [] => none
    | c :: signals =>
        some { x with
          signals := Function.update x.signals pid signals
          commands := Function.update x.commands pid (x.commands pid ++ [c]) }
  else none

/-- The model transfer manager receives `kCmdTask`: it pops the model, and sends it to the mailbox of
the thread; `none` for a failed assertion. -/
def send (x : Transfers σ M) (pid : ℕ) : Option (Transfers σ M) :=
  match x.commands pid with
  | [] => none
  | c :: commands =>
      (x.store pid c.taskId).map fun model =>
        { x with
          commands := Function.update x.commands pid commands
          store := updateEntry x.store pid c.taskId none
          mailbox := Function.update x.mailbox c.dst (x.mailbox c.dst ++ [model]) }

/-- `Load`: in the first epoch from the `KVStore`, in others from the mailbox of the leader, which
waits for a message. -/
def load (x : Transfers σ M) (pid taskId : ℕ) (stored : M) :
    Option (Transfers σ M × List (TransferEvent M)) :=
  match x.leaders pid taskId with
  | some (instance_, .fresh) =>
      if instance_.epoch = 0 then
        some ({ x with
          leaders := updateEntry x.leaders pid taskId (some (instance_, .working stored)) },
          [.loaded taskId instance_.epoch stored])
      else do
        let th ← (instance_.getThreads pid).head?
        match x.mailbox th.1 with
        | [] => none
        | model :: rest =>
            some ({ x with
              mailbox := Function.update x.mailbox th.1 rest
              leaders := updateEntry x.leaders pid taskId (some (instance_, .working model)) },
              [.loaded taskId instance_.epoch model])
  | _ => none

/-- `Dump`: in the last epoch to the `KVStore`, in others to the `ModelTransferStore`, where
`insert` does not overwrite. -/
def dump (x : Transfers σ M) (pid taskId : ℕ) (model : M) :
    Option (Transfers σ M × List (TransferEvent M)) :=
  match x.leaders pid taskId with
  | some (instance_, .working _) =>
      let store := if instance_.epoch + 1 < instance_.task.totalEpoch ∧ (x.store pid taskId).isNone
        then updateEntry x.store pid taskId (some model) else x.store
      some ({ x with
        store := store
        leaders := updateEntry x.leaders pid taskId (some (instance_, .dumped)) },
        [.dumped taskId instance_.epoch model])
  | _ => none

/-- A step. -/
def step (x : Transfers σ M) : TransferMove M → Option (Transfers σ M × List (TransferEvent M))
  | .system i =>
      if x.mayStep dmt i then do
        let (system, o) ← System.step S ids x.system i
        let (last, transfers) ← run (sendInstances info dmt) x.lastInstance o
        some ({ x with
          system := system
          lastInstance := last
          signals := signal x.signals transfers
          leaders := x.startLeader i }, o.map .cluster)
      else none
  | .forward pid => (x.forward pid).map (·, [])
  | .send pid => (x.send pid).map (·, [])
  | .load pid taskId stored => if dmt taskId then x.load pid taskId stored else none
  | .dump pid taskId model => if dmt taskId then x.dump pid taskId model else none

/-! ### What does not change -/

variable {x x' : Transfers σ M} {pid id : ℕ} {model : M} {o : List (TransferEvent M)}

theorem forward_system (h : x.forward pid = some x') : x'.system = x.system := by
  unfold forward at h
  split at h
  · split at h
    · cases h
    · obtain rfl := Option.some.inj h
      rfl
  · cases h

theorem send_cases (h : x.send pid = some x') : ∃ c commands, x.commands pid = c :: commands := by
  unfold send at h
  split at h
  · cases h
  · next c commands hcommands => exact ⟨c, commands, hcommands⟩

theorem send_system (h : x.send pid = some x') : x'.system = x.system := by
  unfold send at h
  split at h
  · cases h
  · obtain ⟨model, -, rfl⟩ := Option.map_eq_some_iff.mp h
    rfl

theorem load_system (h : x.load pid id model = some (x', o)) : x'.system = x.system := by
  unfold load at h
  split at h
  · split at h
    · obtain ⟨rfl, -⟩ := Prod.mk.inj (Option.some.inj h)
      rfl
    · obtain ⟨th, -, h⟩ := Option.bind_eq_some_iff.mp h
      split at h
      · cases h
      · obtain ⟨rfl, -⟩ := Prod.mk.inj (Option.some.inj h)
        rfl
  · cases h

theorem dump_system (h : x.dump pid id model = some (x', o)) : x'.system = x.system := by
  unfold dump at h
  split at h
  · obtain ⟨rfl, -⟩ := Prod.mk.inj (Option.some.inj h)
    rfl
  · cases h

end Transfers

/-- What the cluster manager does. -/
def TransferEvent.clusterEvent {M : Type} : TransferEvent M → Option ClusterEvent
  | cluster e => some e
  | _ => none

/-- The history of the scheduler. -/
def issued {M : Type} (out : List (TransferEvent M)) : List SchedEvent :=
  scheduled (out.filterMap TransferEvent.clusterEvent)

/-- The submitted tasks are accepted. -/
def TransferMove.Fair {σ M : Type} (accepts : List SchedEvent → σ → List Task → Prop)
    (out : List SchedEvent) (x : Transfers σ M) : TransferMove M → Prop
  | .system i => i.Fair accepts out x.system
  | _ => True

/-- What all steps can lead to. -/
def TransferRun {σ M : Type} (S : TaskScheduler σ) {info : WorkerInfo} (ids : LocalIds info)
    (dmt : ℕ → Bool) (accepts : List SchedEvent → σ → List Task → Prop) (s₀ : σ)
    (countThreshold : ℕ) (out : List (TransferEvent M)) (x : Transfers σ M) : Prop :=
  ∃ moves, Along (Transfers.step S ids dmt) (fun before x i => i.Fair accepts (issued before) x) []
    (.start s₀ countThreshold) moves ∧
  run (Transfers.step S ids dmt) (.start s₀ countThreshold) moves = some (x, out)

/-! ## What is promised -/

/-- The last model event of a task. -/
def lastModel {M : Type} (out : List (TransferEvent M)) (id : ℕ) : Option (TransferEvent M) :=
  out.foldl (fun last e => match e with
    | .cluster _ => last
    | .loaded taskId _ _ => if taskId = id then some e else last
    | .dumped taskId _ _ => if taskId = id then some e else last) none

/-- The task whose model is loaded or dumped. -/
def TransferEvent.model {M : Type} : TransferEvent M → Option ℕ
  | cluster _ => none
  | loaded taskId _ _ => some taskId
  | dumped taskId _ _ => some taskId

theorem lastModel_cluster {M : Type} (out : List (TransferEvent M)) (o : List ClusterEvent) :
    lastModel (out ++ o.map .cluster) = lastModel out := by
  funext id
  rw [lastModel, List.foldl_append, List.foldl_map]
  exact List.foldl_fixed' (fun _ => rfl) o

theorem lastModel_snoc {M : Type} {out : List (TransferEvent M)} {e : TransferEvent M} {id : ℕ}
    (he : e.model = some id) (id' : ℕ) :
    lastModel (out ++ [e]) id' = if id' = id then some e else lastModel out id' := by
  rw [lastModel, List.foldl_append]
  cases e with
  | cluster _ => cases he
  | loaded taskId _ _ =>
      obtain rfl := Option.some.inj he
      exact if_congr eq_comm rfl rfl
  | dumped taskId _ _ =>
      obtain rfl := Option.some.inj he
      exact if_congr eq_comm rfl rfl

/-- **The model is handed over**: what is loaded in an epoch but the first is what was dumped at the
end of the one before, and nothing happened in between; what is dumped at the end of an epoch was
loaded in it. -/
def HandedOver {M : Type} (before : List (TransferEvent M)) : TransferEvent M → Prop
  | .cluster _ => True
  | .loaded id 0 _ => ∀ e, lastModel before id = some e → ∃ epoch model, e = .dumped id epoch model
  | .loaded id (epoch + 1) model => lastModel before id = some (.dumped id epoch model)
  | .dumped id epoch _ => ∃ model, lastModel before id = some (.loaded id epoch model)

end FlexPS.Worker
