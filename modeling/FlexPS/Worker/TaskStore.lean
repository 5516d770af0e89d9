import FlexPS.Core.Instance
import FlexPS.Lib.Lockstep
import FlexPS.Lib.Machine

/-!
# Sending tasks

The tasks that are added to a worker wait in its task store until they are submitted.  The first
process sends them to the cluster manager, which reads them again.

## Main definitions

* `TaskStore`, `TaskStore.addTask`, `TaskStore.clearBufferedTasks` — the tasks and the buffer.
* `TaskStore.sendTasksToClusterManager` — what is sent.
* `TaskStore.Buffers` — the tasks that are in the buffer, in their order.
* `TaskStore.buffers_of_run`, `TaskStore.buffers_of_nodup` — there are such tasks at any time, and
  any tasks with different ids may be there.
* `wire_round_trips_iff` — when tasks and instances are read as they were written.
-/

namespace FlexPS.Worker

open Lib FlexPS.Core

/-- `TaskStore`, without the functions that the tasks run. -/
structure TaskStore where
  taskMap : ℤ → Option Task
  bufferedTasks : List ℤ

/-- What a worker does with its tasks. -/
inductive StoreCall where
  | addTask (task : Task)
  | sendTasks
  deriving DecidableEq

namespace TaskStore

/-- An empty store. -/
def empty : TaskStore := ⟨fun _ => none, []⟩

/-- `add_task`; a task with an id that is there is not put into the map. -/
def addTask (task : Task) (s : TaskStore) : TaskStore :=
  match s.taskMap task.getId with
  | none =>
      ⟨Function.update s.taskMap task.getId (some task), s.bufferedTasks ++ [task.getId]⟩
  | some _ =>
      if task.getId ∈ s.bufferedTasks then s
      else { s with bufferedTasks := s.bufferedTasks ++ [task.getId] }

/-- `clear_buffered_tasks`. -/
def clearBufferedTasks (s : TaskStore) : TaskStore := { s with bufferedTasks := [] }

variable {B : Type} (fmt : BinFormat B)

/-- `Worker::send_tasks_to_cluster_manager`, with the stream that is sent; `none` for an id without
a task. -/
def sendTasksToClusterManager (processId : ℕ) (s : TaskStore) :
    Option (TaskStore × List (List B)) :=
  if processId = 0 then do
    let tasks ← s.bufferedTasks.mapM s.taskMap
    let bin := fmt.size.put s.bufferedTasks.length ++ tasks.flatMap (writeTask fmt)
    some (s.clearBufferedTasks, [bin])
  else some (s, [])

/-- A call. -/
def step (processId : ℕ) (s : TaskStore) : StoreCall → Option (TaskStore × List (List B))
  | .addTask task => some (s.addTask task, [])
  | .sendTasks => s.sendTasksToClusterManager fmt processId

/-- The buffer holds the tasks, in their order. -/
def Buffers (s : TaskStore) (tasks : List Task) : Prop :=
  List.Forall₂ (fun id task => s.taskMap id = some task) s.bufferedTasks tasks

variable {fmt} {s : TaskStore} {tasks : List Task}

/-- **What is sent**: the number of the buffered tasks, and the tasks. -/
theorem Buffers.sendTasks (h : s.Buffers tasks) :
    s.sendTasksToClusterManager fmt 0 = some (s.clearBufferedTasks,
      [fmt.size.put tasks.length ++ tasks.flatMap (writeTask fmt)]) := by
  have hread : s.bufferedTasks.mapM s.taskMap = some tasks := mapM_eq_some.mpr h
  rw [sendTasksToClusterManager, if_pos rfl, hread, List.Forall₂.length_eq h]
  rfl

/-- A task with a new id is buffered behind the others. -/
theorem Buffers.addTask (h : s.Buffers tasks) {task : Task}
    (hnew : s.taskMap task.getId = none) : (s.addTask task).Buffers (tasks ++ [task]) := by
  rw [TaskStore.addTask, hnew, Buffers]
  refine List.rel_append (List.Forall₂.imp (fun id task' hid => ?_) h) (.cons ?_ .nil)
  · have hne : id ≠ task.getId := by
      rintro rfl
      rw [hnew] at hid
      cases hid
    simp only [Function.update_of_ne hne, hid]
  · exact Function.update_self ..

/-- Tasks with different ids are all buffered, in their order. -/
theorem buffers_of_nodup (hnodup : (tasks.map Task.getId).Nodup) :
    (tasks.foldl (fun s task => s.addTask task) empty).Buffers tasks ∧
      ∀ id, id ∉ tasks.map Task.getId →
        (tasks.foldl (fun s task => s.addTask task) empty).taskMap id = none := by
  induction tasks using List.reverseRecOn with
  | nil => exact ⟨.nil, fun _ _ => rfl⟩
  | append_singleton tasks task ih =>
      rw [List.map_append, List.map_singleton, List.nodup_append] at hnodup
      obtain ⟨hbuffers, hnone⟩ := ih hnodup.1
      have hnew : task.getId ∉ tasks.map Task.getId :=
        fun hmem => hnodup.2.2 _ hmem _ (List.mem_singleton.mpr rfl) rfl
      rw [List.foldl_append, List.foldl_cons, List.foldl_nil]
      refine ⟨hbuffers.addTask (hnone _ hnew), fun id hid => ?_⟩
      rw [List.map_append, List.mem_append, List.map_singleton, List.mem_singleton] at hid
      have hne : id ≠ task.getId := fun heq => hid (.inr heq)
      rw [TaskStore.addTask, hnone _ hnew]
      simp only [Function.update_of_ne hne]
      exact hnone id fun hmem => hid (.inl hmem)

/-- Every id in the buffer is there once and has a task, and tasks are found under their ids. -/
structure Sound (s : TaskStore) : Prop where
  nodup : s.bufferedTasks.Nodup
  found : ∀ id ∈ s.bufferedTasks, (s.taskMap id).isSome
  keyed : ∀ id task, s.taskMap id = some task → task.getId = id

theorem sound_empty : Sound empty where
  nodup := List.nodup_nil
  found _ hmem := absurd hmem List.not_mem_nil
  keyed _ _ h := by cases h

theorem Sound.addTask (h : s.Sound) (task : Task) : (s.addTask task).Sound := by
  have hnodup : task.getId ∉ s.bufferedTasks → (s.bufferedTasks ++ [task.getId]).Nodup := by
    intro hnew
    refine List.nodup_append.mpr ⟨h.nodup, List.nodup_singleton _, fun id hid id' hid' heq => ?_⟩
    exact hnew (List.mem_singleton.mp hid' ▸ heq ▸ hid)
  rw [TaskStore.addTask]
  cases hid : s.taskMap task.getId with
  | none =>
      have hnew : task.getId ∉ s.bufferedTasks := fun hmem => by
        have hsome := h.found _ hmem
        rw [hid] at hsome
        cases hsome
      refine ⟨hnodup hnew, fun id hmem => ?_, fun id other hother => ?_⟩
      · by_cases heq : id = task.getId
        · simp [heq]
        · simp only [Function.update_of_ne heq]
          refine h.found id ((List.mem_append.mp hmem).resolve_right fun hlast => ?_)
          exact heq (List.mem_singleton.mp hlast)
      · simp only at hother
        by_cases heq : id = task.getId
        · rw [heq, Function.update_self] at hother
          rw [heq, ← Option.some.inj hother]
        · rw [Function.update_of_ne heq] at hother
          exact h.keyed id other hother
  | some old =>
      simp only
      split
      · exact h
      · next hnew =>
          refine ⟨hnodup hnew, fun id hmem => ?_, h.keyed⟩
          rcases List.mem_append.mp hmem with hmem | hmem
          · exact h.found id hmem
          · rw [List.mem_singleton.mp hmem, hid]
            rfl

/-- The buffer holds tasks, one for each of its ids. -/
theorem Sound.buffers (h : s.Sound) :
    ∃ tasks, s.Buffers tasks ∧ (tasks.map Task.getId).Nodup := by
  have hall : ∀ ids : List ℤ, (∀ id ∈ ids, (s.taskMap id).isSome) →
      ∃ tasks, List.Forall₂ (fun id task => s.taskMap id = some task) ids tasks ∧
        tasks.map Task.getId = ids := by
    intro ids hids
    induction ids with
    | nil => exact ⟨[], .nil, rfl⟩
    | cons id ids ih =>
        obtain ⟨hid, hids⟩ := List.forall_mem_cons.mp hids
        obtain ⟨task, htask⟩ := Option.isSome_iff_exists.mp hid
        obtain ⟨tasks, hbuffers, hmap⟩ := ih hids
        exact ⟨task :: tasks, .cons htask hbuffers, by rw [List.map_cons, hmap, h.keyed id task htask]⟩
  obtain ⟨tasks, hbuffers, hmap⟩ := hall s.bufferedTasks h.found
  exact ⟨tasks, hbuffers, hmap ▸ h.nodup⟩

/-- Every call of a worker returns. -/
theorem Sound.step (h : s.Sound) (fmt : BinFormat B) (processId : ℕ) (call : StoreCall) :
    ∃ s' out, TaskStore.step fmt processId s call = some (s', out) ∧ s'.Sound := by
  cases call with
  | addTask task => exact ⟨s.addTask task, [], rfl, h.addTask task⟩
  | sendTasks =>
      by_cases hzero : processId = 0
      · obtain ⟨tasks, hbuffers, -⟩ := h.buffers
        exact ⟨s.clearBufferedTasks, _, hzero ▸ hbuffers.sendTasks, List.nodup_nil,
          fun _ hmem => absurd hmem List.not_mem_nil, h.keyed⟩
      · exact ⟨s, [], if_neg hzero, h⟩

/-- **At any time** the buffer holds tasks, and their ids are different: so are those of a
submission. -/
theorem buffers_of_run (processId : ℕ) (calls : List StoreCall) :
    ∃ s out tasks, run (TaskStore.step fmt processId) empty calls = some (s, out) ∧
      s.Buffers tasks ∧ (tasks.map Task.getId).Nodup := by
  have hcalls : ∀ call ∈ calls, True := fun _ _ => trivial
  obtain ⟨s, out, hrun, hs⟩ := run_total (I := fun _ s => Sound s)
    (fun {_ _ call} hs _ => hs.step fmt processId call) sound_empty
    (along_of_forall hcalls [] empty)
  obtain ⟨tasks, hbuffers, hnodup⟩ := hs.buffers
  exact ⟨s, out, tasks, hrun, hbuffers, hnodup⟩

end TaskStore

/-- **When tasks and instances are read as they were written.**  The cluster manager reads the tasks
of the buffer, in their order and nothing behind them, exactly when the type of each is that of its
class; an instance is read with its task and its map under the same condition, alone or among
others. -/
theorem wire_round_trips_iff {B : Type} (fmt : BinFormat B) :
    (∀ (s : TaskStore) (tasks : List Task), s.Buffers tasks →
      ∃ bin, s.sendTasksToClusterManager fmt 0 = some (s.clearBufferedTasks, [bin]) ∧
        ∀ rest rest', extractTasks fmt (bin ++ rest) = some (tasks, rest') ↔
          (∀ task ∈ tasks, task.Tagged) ∧ rest' = rest) ∧
    (∀ (instance_ : Instance) (rest rest' : List B),
      (∃ instance', Instance.deserialize fmt (instance_.serialize fmt ++ rest) =
          some (instance', rest') ∧ instance_.Same instance') ↔
        instance_.task.Tagged ∧ rest' = rest) ∧
    ∀ (instances : List Instance) (rest rest' : List B),
      (∃ instances', readN (Instance.deserialize fmt) instances.length
          (instances.flatMap (Instance.serialize fmt) ++ rest) = some (instances', rest') ∧
          List.Forall₂ Instance.Same instances instances') ↔
        (∀ instance_ ∈ instances, instance_.task.Tagged) ∧ rest' = rest := by
  refine ⟨fun s tasks hbuffers => ?_, fun _ _ _ => ?_, fun _ _ _ => ?_⟩
  · exact ⟨_, hbuffers.sendTasks, fun _ _ => extractTasks_flatMap_iff fmt⟩
  · exact Instance.deserialize_serialize_iff fmt
  · exact Instance.readN_serialize_iff fmt

/-! ## A stream of words -/

/-- What a word stands for. -/
def getWord {α : Type} (f : ℤ → α) (bin : List ℤ) : Option (α × List ℤ) :=
  bin.head?.map fun w => (f w, bin.tail)

/-- A size is one word. -/
def wordSize : Codec ℤ ℕ where
  put n := [(n : ℤ)]
  get := getWord Int.toNat
  get_put _ _ := rfl

/-- A character is one word. -/
def wordChar : Codec ℤ Char where
  put c := [(c.toNat : ℤ)]
  get := getWord fun w => Char.ofNat w.toNat
  get_put c rest := by simp [getWord]

/-- Every value is written as words, and vectors and strings with their length. -/
def wordFormat : BinFormat ℤ where
  int :=
    { put := fun i => [i]
      get := getWord id
      get_put := fun _ _ => rfl }
  size := wordSize
  bool :=
    { put := fun b => [if b then 1 else 0]
      get := getWord (· != 0)
      get_put := fun b _ => by cases b <;> rfl }
  string :=
    { put := fun text => (Codec.vec wordSize wordChar).put text.toList
      get := fun bin => do
        let (chars, bin) ← (Codec.vec wordSize wordChar).get bin
        some (String.ofList chars, bin)
      get_put := fun text rest => by simp }
  vector := Codec.vec wordSize
  pair := Codec.pair

/-- A task that runs on all processes in its first epoch and on one in its second. -/
def allThenOne : Task :=
  .configurableWorkers ⟨7, 2, 0, 0, 1, false, true⟩ [3, 1]
    ["threads_per_worker", "threads_on_worker:2"]

/-- A task with two stages. -/
def twoStages : Task := .autoParallelism ⟨4, 2, 1, 0, 2, false, false⟩ [100, 20] [] (-5)

/-- Both are sent in the order in which they were added; and an instance is read that runs on two
processes, one of them without threads. -/
theorem wire_round_trips_twoTasks :
    (∃ s bin, (TaskStore.empty.addTask allThenOne |>.addTask twoStages).sendTasksToClusterManager
        wordFormat 0 = some (s, [bin]) ∧ s.bufferedTasks = [] ∧
      extractTasks wordFormat bin = some ([allThenOne, twoStages], [])) ∧
    ∃ instance', Instance.deserialize wordFormat (Instance.serialize wordFormat
        ⟨allThenOne, (∅ : Dict ℤ (List (ℤ × ℤ))).set 1 [] |>.set 0 [(5, 0), (6, 1)]⟩) =
      some (instance', []) ∧ instance'.task = allThenOne ∧
      instance'.cluster.lookup 0 = some [(5, 0), (6, 1)] := by
  obtain ⟨htasks, hinstance, -⟩ := wire_round_trips_iff wordFormat
  constructor
  · obtain ⟨bin, hsend, hread⟩ := htasks (TaskStore.empty.addTask allThenOne |>.addTask twoStages)
      [allThenOne, twoStages] (.cons (by decide) (.cons (by decide) .nil))
    refine ⟨_, bin, hsend, rfl, ?_⟩
    rw [← (hread [] []).mpr ⟨by decide, rfl⟩, List.append_nil]
  · obtain ⟨instance', hread, hsame⟩ := (hinstance
      ⟨allThenOne, (∅ : Dict ℤ (List (ℤ × ℤ))).set 1 [] |>.set 0 [(5, 0), (6, 1)]⟩ [] []).mpr
        ⟨by decide, rfl⟩
    rw [List.append_nil] at hread
    exact ⟨instance', hread, hsame.task, hsame.cluster 0⟩

/-- A `ConfigurableWorkersTask` after `set_type(BasicTaskType)`. -/
def setToBasic : Task :=
  Task.setType .basicTaskType (.configurableWorkers ⟨0, 1, 0, 1, 1, false, false⟩ [] [])

/-- A task of the base class. -/
def plainTask : Task := .basic ⟨1, 1, 0, 2, 0, false, false⟩

/-- The first is read as a task of the base class, and the lengths of its vectors as the type and
the id of the second. -/
theorem wire_round_trips_setType :
    ∃ s bin, (TaskStore.empty.addTask setToBasic |>.addTask plainTask).sendTasksToClusterManager
        wordFormat 0 = some (s, [bin]) ∧
      extractTasks wordFormat bin = some ([.basic ⟨0, 1, 0, 1, 0, false, false⟩,
        .basic ⟨0, 0, 1, 1, 0, true, false⟩], [0, 0]) ∧
      ∀ rest, extractTasks wordFormat bin ≠ some ([setToBasic, plainTask], rest) := by
  have hread : extractTasks wordFormat [2, 0, 0, 1, 0, 1, 0, 0, 0, 0, 0, 0, 1, 1, 0, 2, 0, 0, 0] =
      some ([.basic ⟨0, 1, 0, 1, 0, false, false⟩, .basic ⟨0, 0, 1, 1, 0, true, false⟩], [0, 0]) :=
    rfl
  refine ⟨_, [2, 0, 0, 1, 0, 1, 0, 0, 0, 0, 0, 0, 1, 1, 0, 2, 0, 0, 0], rfl, hread,
    fun rest heq => ?_⟩
  rw [hread] at heq
  cases heq

end FlexPS.Worker
