import Mathlib.Data.Int.Notation
import Mathlib.Data.List.Forall2
import FlexPS.Lib.Codec

/-!
# Tasks on the wire

A worker sends its tasks to the cluster manager, which sends them on as parts of instances.  The
type of a task is written before the task, so that the reader knows which class to read, and once
more among the fields of the base class; the derived classes write their own fields behind those.
The type is a field, which `set_type` can change, while the fields that are written are those of the
class.  The schedulers' `Task` has the fields that the schedulers read.

## Main definitions

* `BinFormat` — what a `BinStream` writes for the types that it knows.
* `Task`, `Task.serialize`, `deserialize` — the three classes, and how they are written and read.
* `extractTasks` — read the tasks of a worker.
* `Task.Tagged` — the type that is written is that of the class.
* `extractTasks_flatMap_iff` — tasks are read as they were written if and only if they have the
  types of their classes.
-/

namespace FlexPS.Core

open Lib

/-- The operators `<<` and `>>` of a first-in first-out `BinStream`. -/
structure BinFormat (B : Type) where
  int : Codec B ℤ
  /-- `size_t`. -/
  size : Codec B ℕ
  bool : Codec B Bool
  string : Codec B String
  vector {α : Type} : Codec B α → Codec B (List α)
  pair {α β : Type} : Codec B α → Codec B β → Codec B (α × β)

/-- `Task::Type`. -/
inductive TaskType where
  | basicTaskType
  | configurableWorkersTaskType
  | autoParallelismTaskType
  deriving DecidableEq, Repr

namespace TaskType

/-- The value of an enumerator. -/
def toInt : TaskType → ℤ
  | basicTaskType => 0
  | configurableWorkersTaskType => 1
  | autoParallelismTaskType => 2

/-- The enumerator with a value, if there is one. -/
def ofInt (value : ℤ) : Option TaskType :=
  if value = 0 then some basicTaskType
  else if value = 1 then some configurableWorkersTaskType
  else if value = 2 then some autoParallelismTaskType
  else none

@[simp] theorem ofInt_toInt (type : TaskType) : ofInt type.toInt = some type := by
  cases type <;> rfl

theorem toInt_of_ofInt {value : ℤ} {type : TaskType} (h : ofInt value = some type) :
    value = type.toInt := by
  unfold ofInt at h
  split_ifs at h <;> cases h <;> assumption

end TaskType

/-- The fields of `Task`, in the order in which they are written; `type` is the value of `type_`. -/
structure TaskFields where
  id : ℤ
  totalEpoch : ℤ
  currentEpoch : ℤ
  numWorkers : ℤ
  type : ℤ
  isLocal : Bool
  dmt : Bool
  deriving DecidableEq, Repr

/-- A task of one of the three classes, without the function that it runs. -/
inductive Task where
  /-- `Task` -/
  | basic (fields : TaskFields)
  /-- `ConfigurableWorkersTask` -/
  | configurableWorkers (fields : TaskFields) (workerNum : List ℤ) (workerNumType : List String)
  /-- `AutoParallelismTask` -/
  | autoParallelism (fields : TaskFields) (iters batchsizes : List ℤ) (currentStageIters : ℤ)
  deriving DecidableEq, Repr

namespace Task

/-- The part of the base class. -/
def fields : Task → TaskFields
  | basic fields | configurableWorkers fields _ _ | autoParallelism fields _ _ _ => fields

/-- `get_id()`. -/
def getId (task : Task) : ℤ := task.fields.id

/-- `get_type()`. -/
def getType (task : Task) : ℤ := task.fields.type

/-- The type of the tasks of the class. -/
def classType : Task → TaskType
  | basic _ => .basicTaskType
  | configurableWorkers _ _ _ => .configurableWorkersTaskType
  | autoParallelism _ _ _ _ => .autoParallelismTaskType

/-- `set_type`. -/
def setType (type : TaskType) : Task → Task
  | basic fields => basic { fields with type := type.toInt }
  | configurableWorkers fields workerNum workerNumType =>
      configurableWorkers { fields with type := type.toInt } workerNum workerNumType
  | autoParallelism fields iters batchsizes currentStageIters =>
      autoParallelism { fields with type := type.toInt } iters batchsizes currentStageIters

/-- The type is that of the class, as the constructors of the classes have it. -/
def Tagged (task : Task) : Prop := task.getType = task.classType.toInt

instance decidableTagged (task : Task) : Decidable task.Tagged :=
  inferInstanceAs (Decidable (_ = _))

end Task

section Format

variable {B : Type} (fmt : BinFormat B)

/-! ## Writing and reading -/

/-- `Task::serialize`. -/
def TaskFields.serialize (fields : TaskFields) : List B :=
  fmt.int.put fields.id ++ fmt.int.put fields.totalEpoch ++ fmt.int.put fields.currentEpoch ++
    fmt.int.put fields.numWorkers ++ fmt.int.put fields.type ++ fmt.bool.put fields.isLocal ++
    fmt.bool.put fields.dmt

/-- `Task::deserialize`. -/
def TaskFields.deserialize (bin : List B) : Option (TaskFields × List B) := do
  let (id, bin) ← fmt.int.get bin
  let (totalEpoch, bin) ← fmt.int.get bin
  let (currentEpoch, bin) ← fmt.int.get bin
  let (numWorkers, bin) ← fmt.int.get bin
  let (type, bin) ← fmt.int.get bin
  let (isLocal, bin) ← fmt.bool.get bin
  let (dmt, bin) ← fmt.bool.get bin
  some (⟨id, totalEpoch, currentEpoch, numWorkers, type, isLocal, dmt⟩, bin)

/-- The virtual `serialize`; the references that it returns are not used. -/
def Task.serialize : Task → List B
  | .basic fields => fields.serialize fmt
  | .configurableWorkers fields workerNum workerNumType =>
      fields.serialize fmt ++ (fmt.vector fmt.int).put workerNum ++
        (fmt.vector fmt.string).put workerNumType
  | .autoParallelism fields iters batchsizes currentStageIters =>
      fields.serialize fmt ++ (fmt.vector fmt.int).put iters ++ fmt.int.put currentStageIters ++
        (fmt.vector fmt.int).put batchsizes

/-- The virtual `deserialize` of a task of the given class. -/
def Task.deserialize (bin : List B) : TaskType → Option (Task × List B)
  | .basicTaskType => do
      let (fields, bin) ← TaskFields.deserialize fmt bin
      some (.basic fields, bin)
  | .configurableWorkersTaskType => do
      let (fields, bin) ← TaskFields.deserialize fmt bin
      let (workerNum, bin) ← (fmt.vector fmt.int).get bin
      let (workerNumType, bin) ← (fmt.vector fmt.string).get bin
      some (.configurableWorkers fields workerNum workerNumType, bin)
  | .autoParallelismTaskType => do
      let (fields, bin) ← TaskFields.deserialize fmt bin
      let (iters, bin) ← (fmt.vector fmt.int).get bin
      let (currentStageIters, bin) ← fmt.int.get bin
      let (batchsizes, bin) ← (fmt.vector fmt.int).get bin
      some (.autoParallelism fields iters batchsizes currentStageIters, bin)

/-- The type of a task, and the task. -/
def writeTask (task : Task) : List B := fmt.int.put task.getType ++ task.serialize fmt

/-- `task::deserialize`, which throws when it reads the type of no class. -/
def deserialize (bin : List B) : Option (Task × List B) := do
  let (value, bin) ← fmt.int.get bin
  let type ← TaskType.ofInt value
  Task.deserialize fmt bin type

/-- `extract_tasks`. -/
def extractTasks (bin : List B) : Option (List Task × List B) := do
  let (numTasks, bin) ← fmt.size.get bin
  readN (deserialize fmt) numTasks bin

/-! ## Round trips -/

@[simp] theorem TaskFields.deserialize_serialize (fields : TaskFields) (rest : List B) :
    TaskFields.deserialize fmt (fields.serialize fmt ++ rest) = some (fields, rest) := by
  simp [TaskFields.deserialize, TaskFields.serialize, List.append_assoc]

/-- **A task is read** by its own class. -/
theorem Task.deserialize_serialize (task : Task) (rest : List B) :
    Task.deserialize fmt (task.serialize fmt ++ rest) task.classType = some (task, rest) := by
  cases task with
  | basic fields => simp [Task.deserialize, Task.serialize, classType]
  | configurableWorkers fields workerNum workerNumType =>
      simp [Task.deserialize, Task.serialize, classType, List.append_assoc]
  | autoParallelism fields iters batchsizes currentStageIters =>
      simp [Task.deserialize, Task.serialize, classType, List.append_assoc]

theorem Task.classType_of_deserialize {bin rest : List B} {type : TaskType} {task : Task}
    (h : Task.deserialize fmt bin type = some (task, rest)) : task.classType = type := by
  cases type <;> simp only [Task.deserialize, Option.bind_eq_bind, Option.bind_eq_some_iff] at h
  case basicTaskType =>
    obtain ⟨_, -, heq⟩ := h
    cases heq
    rfl
  case configurableWorkersTaskType =>
    obtain ⟨_, -, _, -, _, -, heq⟩ := h
    cases heq
    rfl
  case autoParallelismTaskType =>
    obtain ⟨_, -, _, -, _, -, _, -, heq⟩ := h
    cases heq
    rfl

/-- **The type that is written** leads the reader to the class, and to no other. -/
theorem deserialize_writeTask_iff {task : Task} {rest rest' : List B} :
    deserialize fmt (writeTask fmt task ++ rest) = some (task, rest') ↔
      task.Tagged ∧ rest' = rest := by
  have hread : deserialize fmt (writeTask fmt task ++ rest) =
      (TaskType.ofInt task.getType).bind (Task.deserialize fmt (task.serialize fmt ++ rest)) := by
    rw [deserialize, writeTask, List.append_assoc, Codec.get_put_append, Option.bind_eq_bind,
      Option.bind_some]
    rfl
  constructor
  · intro h
    obtain ⟨type, htype, hclass⟩ := Option.bind_eq_some_iff.mp (hread ▸ h)
    obtain rfl := Task.classType_of_deserialize fmt hclass
    rw [Task.deserialize_serialize fmt task rest, Option.some.injEq, Prod.mk.injEq] at hclass
    exact ⟨TaskType.toInt_of_ofInt htype, hclass.2.symm⟩
  · rintro ⟨htagged, rfl⟩
    rw [hread, show task.getType = task.classType.toInt from htagged, TaskType.ofInt_toInt,
      Option.bind_some]
    exact Task.deserialize_serialize fmt task rest'

/-- **Tasks one after the other.** -/
theorem extractTasks_flatMap_iff {tasks : List Task} {rest rest' : List B} :
    extractTasks fmt (fmt.size.put tasks.length ++ tasks.flatMap (writeTask fmt) ++ rest) =
      some (tasks, rest') ↔ (∀ task ∈ tasks, task.Tagged) ∧ rest' = rest := by
  have hread : extractTasks fmt (fmt.size.put tasks.length ++ tasks.flatMap (writeTask fmt) ++
      rest) = readN (deserialize fmt) tasks.length (tasks.flatMap (writeTask fmt) ++ rest) := by
    rw [extractTasks, List.append_assoc, Codec.get_put_append]
    rfl
  have hone : ∀ task ∈ tasks, ∀ rest rest',
      (∃ task', deserialize fmt (writeTask fmt task ++ rest) = some (task', rest') ∧
        task = task') ↔ task.Tagged ∧ rest' = rest := by
    intro task _ rest rest'
    rw [← deserialize_writeTask_iff fmt, exists_eq_right']
  rw [hread, ← readN_flatMap_iff hone]
  simp [List.forall₂_eq_eq_eq]

end Format

end FlexPS.Core
