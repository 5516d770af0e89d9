import FlexPS.Scheduler.TaskScheduler

/-!
# The epochs of a task

The instances of a task are its epochs, one after another.

## Main definitions

* `issuedEpochs` — the epochs for which instances of a task have been issued.
* `CompletedEpochs` — so many epochs of a task are over, and the next one may be running.
* `EpochsOver`, `Completed` — so many epochs of a task, or all of them, are over.
* `OneAtATime` — an instance is issued when no instance of its task runs.
* `InOrder` — it is the next epoch of one of the submitted tasks.
* `EpochsAt` — a list of tasks and their status is what the history says.
-/

namespace FlexPS.Scheduler

open Lib

/-- The epochs of the issued instances of a task. -/
def issuedEpochs (out : List SchedEvent) (id : ℕ) : List ℕ :=
  out.filterMap fun
    | .issued instance_ => if instance_.id = id then some instance_.epoch else none
    | _ => none

/-- The first `n` epochs of the task are over, and at most the next one has been issued. -/
def CompletedEpochs (out : List SchedEvent) (id n : ℕ) : Prop :=
  (¬ Busy out id ∧ issuedEpochs out id = List.range n) ∨
    (Busy out id ∧ issuedEpochs out id = List.range (n + 1))

/-- An instance is issued when no instance of its task runs. -/
def OneAtATime (before : List SchedEvent) (e : SchedEvent) : Prop :=
  ∀ instance_, e = .issued instance_ → ¬ Busy before instance_.id

/-- The first `n` epochs have been issued, once each, and are over. -/
def EpochsOver (out : List SchedEvent) (id n : ℕ) : Prop :=
  issuedEpochs out id = List.range n ∧ ¬ Busy out id

/-- All epochs of the task have been issued, once each, and are over. -/
def Completed (out : List SchedEvent) (task : Task) : Prop :=
  EpochsOver out task.id task.totalEpoch

/-- An instance is the next epoch of a submitted task, and is issued when the epochs before it are
over. -/
def InOrder (tasks : List Task) (before : List SchedEvent) (e : SchedEvent) : Prop :=
  ∀ instance_, e = .issued instance_ →
    (∃ task ∈ tasks, task.id = instance_.id ∧ instance_.epoch < task.totalEpoch) ∧
    ¬ Busy before instance_.id ∧ issuedEpochs before instance_.id = List.range instance_.epoch

/-- The tasks are indexed by their ids when there are `n` tasks already. -/
def Indexed (n : ℕ) (tasks : List Task) : Prop :=
  ∀ (i : ℕ) (task : Task), tasks[i]? = some task → task.id = n + i

/-- The tasks have not run, and have epochs to run. -/
def New (tasks : List Task) : Prop := ∀ task ∈ tasks, task.currentEpoch = 0 ∧ 1 ≤ task.totalEpoch

/-- New tasks that are indexed by their ids. -/
structure Fresh (n : ℕ) (tasks : List Task) : Prop where
  ids : Indexed n tasks
  epochs : New tasks

@[simp] theorem issuedEpochs_append (out o : List SchedEvent) (id : ℕ) :
    issuedEpochs (out ++ o) id = issuedEpochs out id ++ issuedEpochs o id :=
  List.filterMap_append

variable {out : List SchedEvent} {id id' n tid : ℕ} {instance_ : Instance}

theorem not_busy_nil (id : ℕ) : ¬ Busy [] id := fun ⟨_, h⟩ => nomatch h

theorem completedEpochs_nil (id : ℕ) : CompletedEpochs [] id 0 := .inl ⟨not_busy_nil id, rfl⟩

theorem CompletedEpochs.snoc_of_none (h : CompletedEpochs out id n) {e : SchedEvent}
    (he : e.entry = none) : CompletedEpochs (out ++ [e]) id n := by
  have hepochs : issuedEpochs [e] id = [] := by
    cases e with
    | issued => cases he
    | _ => rfl
  rw [CompletedEpochs, busy_snoc_of_none he, issuedEpochs_append, hepochs, List.append_nil]
  exact h

/-- The next epoch is issued. -/
theorem CompletedEpochs.issue (h : CompletedEpochs out id n) (hidle : ¬ Busy out id)
    (hid : instance_.id = id) (hepoch : instance_.epoch = n) (hne : instance_.threads ≠ []) :
    CompletedEpochs (out ++ [.issued instance_]) id n := by
  refine .inr ⟨(busy_issued hne id).mpr (.inl hid.symm), ?_⟩
  have hepochs := (h.resolve_right fun hbusy => hidle hbusy.1).2
  rw [issuedEpochs_append, hepochs, List.range_succ]
  simp [issuedEpochs, hid, hepoch]

/-- An instance of another task is issued. -/
theorem CompletedEpochs.issue_other (h : CompletedEpochs out id n) (hid : instance_.id ≠ id)
    (hne : instance_.threads ≠ []) : CompletedEpochs (out ++ [.issued instance_]) id n := by
  have hbusy : Busy (out ++ [.issued instance_]) id ↔ Busy out id := by
    rw [busy_issued hne]
    exact or_iff_right hid.symm
  have hepochs : issuedEpochs (out ++ [.issued instance_]) id = issuedEpochs out id := by
    rw [issuedEpochs_append]
    simp [issuedEpochs, hid]
  rw [CompletedEpochs, hbusy, hepochs]
  exact h

/-- A thread of the epoch finishes, and the epoch is over if it was the last one. -/
theorem CompletedEpochs.finish (h : CompletedEpochs out id n) (hid : id ∈ holders out tid) :
    (Busy (out ++ [.finished id tid]) id → CompletedEpochs (out ++ [.finished id tid]) id n) ∧
    (¬ Busy (out ++ [.finished id tid]) id →
      CompletedEpochs (out ++ [.finished id tid]) id (n + 1)) := by
  have hepochs : issuedEpochs (out ++ [.finished id tid]) id = issuedEpochs out id := by
    rw [issuedEpochs_append]
    exact List.append_nil _
  have hissued := (h.resolve_left fun hidle => hidle.1 ⟨tid, hid⟩).2
  exact ⟨fun hbusy => .inr ⟨hbusy, hepochs.trans hissued⟩,
    fun hidle => .inl ⟨hidle, hepochs.trans hissued⟩⟩

/-- A thread of another task finishes. -/
theorem CompletedEpochs.finish_other (h : CompletedEpochs out id n) (hne : id ≠ id') :
    CompletedEpochs (out ++ [.finished id' tid]) id n := by
  have hepochs : issuedEpochs (out ++ [.finished id' tid]) id = issuedEpochs out id := by
    rw [issuedEpochs_append]
    exact List.append_nil _
  rw [CompletedEpochs, busy_finished_of_ne hne, hepochs]
  exact h

theorem epochsOver_nil (id : ℕ) : EpochsOver [] id 0 := ⟨rfl, not_busy_nil id⟩

theorem EpochsOver.completedEpochs (h : EpochsOver out id n) : CompletedEpochs out id n :=
  .inl ⟨h.2, h.1⟩

theorem CompletedEpochs.over (h : CompletedEpochs out id n) (hidle : ¬ Busy out id) :
    EpochsOver out id n :=
  ⟨(h.resolve_right fun hbusy => hidle hbusy.1).2, hidle⟩

/-- Epochs that are over stay over, whatever happens to other tasks. -/
theorem EpochsOver.issue_other (h : EpochsOver out id n) (hid : instance_.id ≠ id)
    (hne : instance_.threads ≠ []) : EpochsOver (out ++ [.issued instance_]) id n := by
  refine (h.completedEpochs.issue_other hid hne).over fun hbusy => ?_
  exact ((busy_issued hne id).mp hbusy).elim (fun heq => hid heq.symm) h.2

theorem EpochsOver.finish_other (h : EpochsOver out id n) (hne : id ≠ id') :
    EpochsOver (out ++ [.finished id' tid]) id n :=
  (h.completedEpochs.finish_other hne).over fun hbusy => h.2 ((busy_finished_of_ne hne).mp hbusy)

theorem EpochsOver.snoc_of_none (h : EpochsOver out id n) {e : SchedEvent} (he : e.entry = none) :
    EpochsOver (out ++ [e]) id n :=
  (h.completedEpochs.snoc_of_none he).over fun hbusy => h.2 ((busy_snoc_of_none he id).mp hbusy)

/-- What is issued next is in order. -/
theorem CompletedEpochs.inOrder (h : CompletedEpochs out instance_.id instance_.epoch)
    (hidle : ¬ Busy out instance_.id) {tasks : List Task} {task : Task} (hmem : task ∈ tasks)
    (hid : task.id = instance_.id) (hlt : instance_.epoch < task.totalEpoch) :
    InOrder tasks out (.issued instance_) := by
  rintro _ ⟨⟩
  exact ⟨⟨task, hmem, hid, hlt⟩, hidle, (h.resolve_right fun hbusy => hidle hbusy.1).2⟩

theorem inOrder_of_none (tasks : List Task) (out : List SchedEvent) {e : SchedEvent}
    (he : ∀ instance_, e ≠ .issued instance_) : InOrder tasks out e :=
  fun instance_ heq => absurd heq (he instance_)

/-- A task is completed when all of its epochs are over. -/
theorem CompletedEpochs.completed_iff {task : Task} (h : CompletedEpochs out task.id n) :
    Completed out task ↔ n = task.totalEpoch ∧ ¬ Busy out task.id := by
  refine ⟨fun ⟨hepochs, hidle⟩ => ⟨?_, hidle⟩, fun ⟨heq, hidle⟩ => ?_⟩
  · have hlen := congrArg List.length ((h.over hidle).1.symm.trans hepochs)
    rwa [List.length_range, List.length_range] at hlen
  · rw [Completed, ← heq]
    exact h.over hidle

/-! ## A list of tasks -/

/-- The tasks count their epochs, and the finished ones are marked. -/
structure EpochsAt (tasks₀ : List Task) (out : List SchedEvent) (tasks : List Task)
    (status : List TaskStatus) : Prop where
  length : tasks.length = tasks₀.length
  status_length : status.length = tasks.length
  task : ∀ (i : ℕ) (task : Task), tasks[i]? = some task → ∃ task₀ : Task,
    tasks₀[i]? = some task₀ ∧ task₀.id = i ∧ task.id = i ∧ task.totalEpoch = task₀.totalEpoch ∧
    task.currentEpoch ≤ task.totalEpoch ∧ CompletedEpochs out i task.currentEpoch
  finished : ∀ (i : ℕ) (task : Task), tasks[i]? = some task →
    (status[i]? = some TaskStatus.finished ↔ task.currentEpoch = task.totalEpoch)
  inOrder : Throughout (InOrder tasks₀) out

variable {tasks₀ tasks : List Task} {status status' : List TaskStatus} {i : ℕ} {task : Task}

theorem Fresh.epochsAt (h : Fresh 0 tasks) :
    EpochsAt tasks [] tasks (List.replicate tasks.length .ready) where
  length := rfl
  status_length := List.length_replicate ..
  task i task htask := by
    have hid := (h.ids i task htask).trans (Nat.zero_add i)
    have hepoch := (h.epochs task (List.mem_of_getElem? htask)).1
    refine ⟨task, htask, hid, hid, rfl, ?_, ?_⟩
    · rw [hepoch]
      exact Nat.zero_le _
    · rw [hepoch]
      exact completedEpochs_nil i
  finished i task htask := by
    have hepoch := h.epochs task (List.mem_of_getElem? htask)
    have hready : (List.replicate tasks.length TaskStatus.ready)[i]? ≠ some .finished := by
      rw [List.getElem?_replicate]
      split
      · nofun
      · nofun
    refine iff_of_false hready ?_
    omega
  inOrder := throughout_nil _

/-- Another status, with the same finished tasks. -/
theorem EpochsAt.congr (h : EpochsAt tasks₀ out tasks status) (hlen : status'.length = status.length)
    (hsame : ∀ i : ℕ, status'[i]? = some TaskStatus.finished ↔ status[i]? = some TaskStatus.finished) :
    EpochsAt tasks₀ out tasks status' :=
  ⟨h.length, hlen.trans h.status_length, h.task,
    fun i task htask => (hsame i).trans (h.finished i task htask), h.inOrder⟩

theorem EpochsAt.snoc_of_none (h : EpochsAt tasks₀ out tasks status) {e : SchedEvent}
    (he : e.entry = none) : EpochsAt tasks₀ (out ++ [e]) tasks status where
  length := h.length
  status_length := h.status_length
  task i task htask := by
    obtain ⟨task₀, htask₀, hid₀, hid, htotal, hle, hepochs⟩ := h.task i task htask
    exact ⟨task₀, htask₀, hid₀, hid, htotal, hle, hepochs.snoc_of_none he⟩
  finished := h.finished
  inOrder := by
    refine throughout_snoc.mpr ⟨h.inOrder, inOrder_of_none _ _ fun instance_ heq => ?_⟩
    subst heq
    cases he

/-- **The next epoch of a task is issued.** -/
theorem EpochsAt.issue (h : EpochsAt tasks₀ out tasks status) (htask : tasks[i]? = some task)
    (hidle : ¬ Busy out i) (hstatus : status[i]? ≠ some TaskStatus.finished)
    (hid : instance_.id = task.id) (hepoch : instance_.epoch = task.currentEpoch) (hne : instance_.threads ≠ []) :
    EpochsAt tasks₀ (out ++ [.issued instance_]) tasks status where
  length := h.length
  status_length := h.status_length
  task j task' htask' := by
    obtain ⟨task₀, htask₀, hid₀, hid', htotal, hle, hepochs⟩ := h.task j task' htask'
    refine ⟨task₀, htask₀, hid₀, hid', htotal, hle, ?_⟩
    obtain ⟨-, -, -, hidi, -⟩ := h.task i task htask
    by_cases hij : j = i
    · subst hij
      obtain rfl := Option.some.inj (htask.symm.trans htask')
      exact hepochs.issue hidle (hid.trans hidi) hepoch hne
    · exact hepochs.issue_other (fun heq => hij (heq.symm.trans (hid.trans hidi))) hne
  finished := h.finished
  inOrder := by
    obtain ⟨task₀, htask₀, hid₀, hidi, htotal, hle, hepochs⟩ := h.task i task htask
    have hidi := hid.trans hidi
    refine throughout_snoc.mpr ⟨h.inOrder, ?_⟩
    refine CompletedEpochs.inOrder ?_ ?_ (List.mem_of_getElem? htask₀) (hid₀.trans hidi.symm) ?_
    · rwa [hidi, hepoch]
    · rwa [hidi]
    · rw [hepoch, ← htotal]
      exact lt_of_le_of_ne hle fun heq => hstatus ((h.finished i task htask).mpr heq)

/-- **A thread of a task finishes**, but not the last one. -/
theorem EpochsAt.finish_busy (h : EpochsAt tasks₀ out tasks status) (hid : id ∈ holders out tid)
    (hbusy : Busy (out ++ [.finished id tid]) id) :
    EpochsAt tasks₀ (out ++ [.finished id tid]) tasks status where
  length := h.length
  status_length := h.status_length
  task i task htask := by
    obtain ⟨task₀, htask₀, hid₀, hidi, htotal, hle, hepochs⟩ := h.task i task htask
    refine ⟨task₀, htask₀, hid₀, hidi, htotal, hle, ?_⟩
    by_cases heq : i = id
    · subst heq
      exact (hepochs.finish hid).1 hbusy
    · exact hepochs.finish_other heq
  finished := h.finished
  inOrder := throughout_snoc.mpr ⟨h.inOrder, inOrder_of_none _ _ nofun⟩

/-- **The last thread of a task finishes**, and its epoch is over. -/
theorem EpochsAt.finish_idle (h : EpochsAt tasks₀ out tasks status) (htask : tasks[id]? = some task)
    (hid : id ∈ holders out tid) (hstatus : status[id]? ≠ some TaskStatus.finished)
    (hidle : ¬ Busy (out ++ [.finished id tid]) id) :
    EpochsAt tasks₀ (out ++ [.finished id tid]) (tasks.set id task.incEpoch)
      (status.set id (if task.incEpoch.currentEpoch = task.incEpoch.totalEpoch then .finished
        else .ready)) where
  length := by rw [List.length_set, h.length]
  status_length := by rw [List.length_set, List.length_set, h.status_length]
  task i task' htask' := by
    by_cases heq : id = i
    · subst heq
      obtain ⟨task₀, htask₀, hid₀, hidi, htotal, hle, hepochs⟩ := h.task id task htask
      rw [List.getElem?_set_self (List.getElem?_eq_some_iff.mp htask).1] at htask'
      obtain rfl := Option.some.inj htask'
      refine ⟨task₀, htask₀, hid₀, hidi, htotal, ?_, (hepochs.finish hid).2 hidle⟩
      have hne : task.currentEpoch ≠ task.totalEpoch :=
        fun heq => hstatus ((h.finished id task htask).mpr heq)
      simp only [Task.incEpoch_currentEpoch, Task.incEpoch_totalEpoch]
      omega
    · rw [List.getElem?_set_ne heq] at htask'
      obtain ⟨task₀, htask₀, hid₀, hidi, htotal, hle, hepochs⟩ := h.task i task' htask'
      exact ⟨task₀, htask₀, hid₀, hidi, htotal, hle, hepochs.finish_other (Ne.symm heq)⟩
  finished i task' htask' := by
    by_cases heq : id = i
    · subst heq
      have hlt := (List.getElem?_eq_some_iff.mp htask).1
      rw [List.getElem?_set_self hlt] at htask'
      obtain rfl := Option.some.inj htask'
      rw [List.getElem?_set_self (by rwa [h.status_length])]
      split
      · next hdone => exact iff_of_true rfl hdone
      · next hdone => exact iff_of_false nofun hdone
    · rw [List.getElem?_set_ne heq] at htask' ⊢
      exact h.finished i task' htask'
  inOrder := throughout_snoc.mpr ⟨h.inOrder, inOrder_of_none _ _ nofun⟩

/-- Only instances of submitted tasks have been issued. -/
theorem EpochsAt.issuedEpochs_eq_nil (h : EpochsAt tasks₀ out tasks status)
    (hid : tasks.length ≤ id) : issuedEpochs out id = [] := by
  refine List.filterMap_eq_nil_iff.mpr fun e he => ?_
  obtain ⟨before, after, hsplit⟩ := List.append_of_mem he
  cases e with
  | issued instance_ =>
      obtain ⟨⟨task₀, hmem, hid₀, -⟩, -⟩ := h.inOrder before _ after hsplit instance_ rfl
      obtain ⟨i, hi⟩ := List.mem_iff_getElem?.mp hmem
      have hlt : i < tasks.length := h.length ▸ (List.getElem?_eq_some_iff.mp hi).1
      obtain ⟨task, htask⟩ : ∃ task, tasks[i]? = some task := ⟨_, List.getElem?_eq_getElem hlt⟩
      obtain ⟨task₁, htask₁, hid₁, -⟩ := h.task i task htask
      obtain rfl := Option.some.inj (hi.symm.trans htask₁)
      refine if_neg fun heq => ?_
      omega
  | _ => rfl

/-- **More tasks are submitted.** -/
theorem EpochsAt.append (h : EpochsAt tasks₀ out tasks status) {new : List Task}
    (hnew : Fresh tasks.length new) (hbusy : ∀ id, Busy out id → id < tasks.length) :
    EpochsAt (tasks₀ ++ new) out (tasks ++ new)
      (status ++ List.replicate new.length .ready) where
  length := by rw [List.length_append, List.length_append, h.length]
  status_length := by
    rw [List.length_append, List.length_append, List.length_replicate, h.status_length]
  task i task htask := by
    rcases lt_or_ge i tasks.length with hlt | hge
    · rw [List.getElem?_append_left hlt] at htask
      rw [List.getElem?_append_left (h.length ▸ hlt)]
      exact h.task i task htask
    · rw [List.getElem?_append_right hge] at htask
      rw [List.getElem?_append_right (h.length ▸ hge), ← h.length]
      have hid : task.id = i := by
        rw [hnew.ids _ task htask, Nat.add_sub_cancel' hge]
      have hepoch := (hnew.epochs task (List.mem_of_getElem? htask)).1
      have hidle : ¬ Busy out i := fun hrun => not_lt.mpr hge (hbusy i hrun)
      refine ⟨task, htask, hid, hid, rfl, ?_, ?_⟩
      · rw [hepoch]
        exact Nat.zero_le _
      · rw [hepoch]
        exact .inl ⟨hidle, h.issuedEpochs_eq_nil hge⟩
  finished i task htask := by
    rcases lt_or_ge i tasks.length with hlt | hge
    · rw [List.getElem?_append_left hlt] at htask
      rw [List.getElem?_append_left (h.status_length.symm ▸ hlt)]
      exact h.finished i task htask
    · rw [List.getElem?_append_right hge] at htask
      have hepoch := hnew.epochs task (List.mem_of_getElem? htask)
      rw [List.getElem?_append_right (h.status_length.symm ▸ hge), List.getElem?_replicate]
      refine iff_of_false (fun heq => ?_) (by omega)
      split at heq
      · cases heq
      · cases heq
  inOrder := h.inOrder.imp fun before e he instance_ heq => by
    obtain ⟨⟨task, hmem, htask⟩, hrest⟩ := he instance_ heq
    exact ⟨⟨task, List.mem_append_left _ hmem, htask⟩, hrest⟩

theorem new_append {tasks tasks' : List Task} :
    New (tasks ++ tasks') ↔ New tasks ∧ New tasks' :=
  List.forall_mem_append

/-- **All tasks are marked as finished when they are completed.** -/
theorem EpochsAt.all_finished_iff (h : EpochsAt tasks₀ out tasks status)
    (hidle : ∀ i : ℕ, status[i]? = some TaskStatus.finished → ¬ Busy out i) :
    status.all (· = .finished) = true ↔ ∀ task₀ ∈ tasks₀, Completed out task₀ := by
  have hget : ∀ (i : ℕ) (task₀ : Task), tasks₀[i]? = some task₀ → ∃ task, tasks[i]? = some task ∧
      (Completed out task₀ ↔ status[i]? = some TaskStatus.finished) := by
    intro i task₀ htask₀
    have hlt : i < tasks.length := by
      rw [h.length]
      exact (List.getElem?_eq_some_iff.mp htask₀).1
    obtain ⟨task, htask⟩ : ∃ task, tasks[i]? = some task := ⟨_, List.getElem?_eq_getElem hlt⟩
    obtain ⟨task₀', htask₀', rfl, -, htotal, -, hepochs⟩ := h.task i task htask
    obtain rfl := Option.some.inj (htask₀.symm.trans htask₀')
    refine ⟨task, htask, ?_⟩
    rw [h.finished _ task htask, htotal, hepochs.completed_iff]
    refine and_iff_left_of_imp fun heq => ?_
    exact hidle _ ((h.finished _ task htask).mpr (heq.trans htotal.symm))
  rw [List.all_eq_true]
  constructor
  · intro hall task₀ hmem
    obtain ⟨i, hi⟩ := List.mem_iff_getElem?.mp hmem
    obtain ⟨task, htask, hiff⟩ := hget i task₀ hi
    have hlt : i < status.length := h.status_length ▸ (List.getElem?_eq_some_iff.mp htask).1
    refine hiff.mpr ?_
    rw [List.getElem?_eq_getElem hlt]
    exact congrArg some (of_decide_eq_true (hall _ (List.getElem_mem hlt)))
  · intro hall st hmem
    obtain ⟨i, hi⟩ := List.mem_iff_getElem?.mp hmem
    have hlt : i < tasks₀.length := by
      rw [← h.length, ← h.status_length]
      exact (List.getElem?_eq_some_iff.mp hi).1
    obtain ⟨task, htask, hiff⟩ := hget i _ (List.getElem?_eq_getElem hlt)
    have hfinished := hiff.mp (hall _ (List.getElem_mem hlt))
    exact decide_eq_true (Option.some.inj (hi.symm.trans hfinished))

end FlexPS.Scheduler
