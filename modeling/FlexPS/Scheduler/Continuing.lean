import FlexPS.Scheduler.Exclusive

/-!
# Epoch after epoch

The instances of a task continue each other: the next one is the next epoch of the same task, or the
first epoch of a task when the last one that had its id has come to its last epoch.  This holds for
any number of submissions.

## Main definitions

* `lastInstance` — the last instance of a task.
* `Consecutive` — an instance continues the last one of its task.
* `Gathered` — the threads of an instance that hands its model over are on one process.
* `Continues` — the tasks that a scheduler has to work on continue what has been issued.
* `HandsOver` and its three instances — schedulers whose instances do both.
-/

namespace FlexPS.Scheduler

open Lib

/-- `last_instance_`, when every instance of the history has been set. -/
def lastInstance (out : List SchedEvent) (id : ℕ) : Option Instance :=
  out.foldl (fun last e => match e with
    | .issued instance_ => if instance_.id = id then some instance_ else last
    | _ => last) none

/-- The task is the next epoch of the last instance, or has not run yet and the last instance was a
last epoch. -/
def Follows (last : Option Instance) (task : Task) : Prop :=
  (task.currentEpoch = 0 ∧ ∀ instance_, last = some instance_ →
    instance_.epoch + 1 = instance_.task.totalEpoch) ∨
  ∃ instance_, last = some instance_ ∧ instance_.task.incEpoch = task

/-- An instance continues the last one of its task. -/
def Consecutive (before : List SchedEvent) (e : SchedEvent) : Prop :=
  ∀ instance_, e = .issued instance_ → instance_.epoch < instance_.task.totalEpoch ∧
    Follows (lastInstance before instance_.id) instance_.task

/-- A task that hands its model over is a basic task all of whose threads are on one process. -/
def LocalIf (dmt : ℕ → Bool) (task : Task) : Prop :=
  dmt task.id = true → task.type = .basic ∧ task.isLocal = true

/-- The threads of an instance that hands its model over are on one process. -/
def Gathered (dmt : ℕ → Bool) (_ : List SchedEvent) (e : SchedEvent) : Prop :=
  ∀ instance_, e = .issued instance_ → dmt instance_.id = true → instance_.task.isLocal = true ∧
    ∃ pid, ∀ th ∈ instance_.threads, th.1 = pid

/-- The tasks are new, and those that hand their models over are local. -/
def Transferable {σ : Type} (dmt : ℕ → Bool) (accepts : List SchedEvent → σ → List Task → Prop)
    (out : List SchedEvent) (s : σ) (tasks : List Task) : Prop :=
  accepts out s tasks ∧ New tasks ∧ ∀ task ∈ tasks, LocalIf dmt task

variable {info : WorkerInfo} {dmt : ℕ → Bool} {out o : List SchedEvent} {d : Draw} {id tid : ℕ}
  {task task' : Task} {instance_ : Instance} {e : SchedEvent} {todo todo' : Task → Prop}

/-! ## The last instance -/

theorem lastInstance_issued (out : List SchedEvent) (instance_ : Instance) (id : ℕ) :
    lastInstance (out ++ [.issued instance_]) id =
      if instance_.id = id then some instance_ else lastInstance out id := by
  rw [lastInstance, List.foldl_append]
  rfl

theorem lastInstance_snoc (he : ∀ instance_, e ≠ .issued instance_) (id : ℕ) :
    lastInstance (out ++ [e]) id = lastInstance out id := by
  rw [lastInstance, List.foldl_append]
  cases e with
  | issued instance_ => exact absurd rfl (he instance_)
  | _ => rfl

/-- The last instance of a task has been issued. -/
theorem issued_of_lastInstance (h : lastInstance out id = some instance_) :
    .issued instance_ ∈ out := by
  induction out using List.reverseRecOn with
  | nil => cases h
  | append_singleton out e ih =>
      by_cases hissued : ∃ other, e = .issued other
      · obtain ⟨other, rfl⟩ := hissued
        rw [lastInstance_issued] at h
        split at h
        · obtain rfl := Option.some.inj h
          exact List.mem_append_right _ (List.mem_singleton_self _)
        · exact List.mem_append_left _ (ih h)
      · rw [lastInstance_snoc fun other heq => hissued ⟨other, heq⟩] at h
        exact List.mem_append_left _ (ih h)

@[simp] theorem incEpoch_instanceBasicSetup (task : Task) :
    (instanceBasicSetup task).incEpoch = instanceBasicSetup task.incEpoch := by
  unfold instanceBasicSetup
  by_cases h : task.isBasic ∧ task.numWorkers = 0
  · rw [if_pos h]
    exact (if_pos (show task.incEpoch.isBasic ∧ task.incEpoch.numWorkers = 0 from h)).symm
  · rw [if_neg h]
    exact (if_neg (show ¬ (task.incEpoch.isBasic ∧ task.incEpoch.numWorkers = 0) from h)).symm

@[simp] theorem instanceBasicSetup_totalEpoch (task : Task) :
    (instanceBasicSetup task).totalEpoch = task.totalEpoch := by
  unfold instanceBasicSetup
  split <;> rfl

theorem LocalIf.incEpoch (h : LocalIf dmt task) : LocalIf dmt task.incEpoch := h

/-- A task that hands its model over is run on one process at a time. -/
theorem LocalIf.traverses (h : LocalIf dmt task) (hdmt : dmt task.id = true) :
    (instanceBasicSetup task).traverses = true := by
  obtain ⟨htype, hlocal⟩ := h hdmt
  rw [instanceBasicSetup_traverses, Task.traverses, htype]
  exact hlocal

/-! ## What there is to do -/

/-- The tasks that the scheduler has to work on: one that does not run continues what has been
issued, one that runs is the last instance; and the last instance of anything else was a last
epoch. -/
structure Continues (dmt : ℕ → Bool) (out : List SchedEvent) (todo : Task → Prop) : Prop where
  localIf : ∀ task, todo task → LocalIf dmt task
  lt : ∀ task, todo task → task.currentEpoch < task.totalEpoch
  idle : ∀ task, todo task → ¬ Busy out task.id →
    Follows (lastInstance out task.id) (instanceBasicSetup task)
  busy : ∀ task, todo task → Busy out task.id → ∃ instance_,
    lastInstance out task.id = some instance_ ∧ instance_.task = instanceBasicSetup task
  ended : ∀ id, (∀ task, todo task → task.id ≠ id) → ∀ instance_,
    lastInstance out id = some instance_ → instance_.epoch + 1 = instance_.task.totalEpoch
  consecutive : Throughout Consecutive out
  gathered : Throughout (Gathered dmt) out

/-- What is left to do when an epoch of the task is over. -/
def AfterEpoch (todo : Task → Prop) (task t : Task) : Prop :=
  (todo t ∧ t.id ≠ task.id) ∨ (t = task.incEpoch ∧ t.currentEpoch ≠ t.totalEpoch)

theorem continues_nil (dmt : ℕ → Bool) (htodo : ∀ task, ¬ todo task) : Continues dmt [] todo where
  localIf task htask := absurd htask (htodo task)
  lt task htask := absurd htask (htodo task)
  idle task htask := absurd htask (htodo task)
  busy task htask := absurd htask (htodo task)
  ended id _ instance_ hlast := by cases hlast
  consecutive := throughout_nil _
  gathered := throughout_nil _

theorem Continues.congr (h : Continues dmt out todo) (heq : ∀ t, todo' t ↔ todo t) :
    Continues dmt out todo' := by
  have hsame : todo' = todo := funext fun t => propext (heq t)
  rwa [hsame]

theorem Continues.snoc_of_none (h : Continues dmt out todo) (he : e.entry = none) :
    Continues dmt (out ++ [e]) todo := by
  have hnot : ∀ instance_, e ≠ .issued instance_ := by
    rintro instance_ rfl
    cases he
  refine ⟨h.localIf, h.lt, fun task htask hidle => ?_, fun task htask hbusy => ?_,
    fun id hother instance_ hlast => ?_,
    throughout_snoc.mpr ⟨h.consecutive, fun instance_ heq => absurd heq (hnot instance_)⟩,
    throughout_snoc.mpr ⟨h.gathered, fun instance_ heq => absurd heq (hnot instance_)⟩⟩
  · rw [lastInstance_snoc hnot]
    exact h.idle task htask fun hbusy => hidle ((busy_snoc_of_none he _).mpr hbusy)
  · rw [lastInstance_snoc hnot]
    exact h.busy task htask ((busy_snoc_of_none he _).mp hbusy)
  · rw [lastInstance_snoc hnot] at hlast
    exact h.ended id hother instance_ hlast

/-- **An instance is issued** of one of the tasks. -/
theorem Continues.issue (h : Continues dmt out todo) (htask : todo task) (hidle : ¬ Busy out task.id)
    (honly : ∀ t, todo t → t.id = task.id → t = task)
    (hinstance : instance_.task = instanceBasicSetup task) (hne : instance_.threads ≠ [])
    (hone : (instanceBasicSetup task).traverses = true →
      ∃ pid, ∀ th ∈ instance_.threads, th.1 = pid) :
    Continues dmt (out ++ [.issued instance_]) todo := by
  have hid : instance_.id = task.id := by rw [Instance.id, hinstance, instanceBasicSetup_id]
  refine ⟨h.localIf, h.lt, fun t ht hnot => ?_, fun t ht hbusy => ?_, fun id hother last hlast => ?_,
    throughout_snoc.mpr ⟨h.consecutive, ?_⟩, throughout_snoc.mpr ⟨h.gathered, ?_⟩⟩
  · rw [busy_issued hne, hid, not_or] at hnot
    rw [lastInstance_issued, if_neg fun heq => hnot.1 (heq.symm.trans hid)]
    exact h.idle t ht hnot.2
  · rw [lastInstance_issued]
    by_cases heq : instance_.id = t.id
    · obtain rfl := honly t ht (heq.symm.trans hid)
      exact ⟨instance_, if_pos heq, hinstance⟩
    · rw [if_neg heq]
      exact h.busy t ht (((busy_issued hne _).mp hbusy).resolve_left (Ne.symm heq))
  · rw [lastInstance_issued, if_neg fun heq => hother task htask (hid.symm.trans heq)] at hlast
    exact h.ended id hother last hlast
  · rintro _ ⟨⟩
    rw [Instance.epoch, hinstance, hid, instanceBasicSetup_currentEpoch, instanceBasicSetup_totalEpoch]
    exact ⟨h.lt task htask, h.idle task htask hidle⟩
  · rintro _ ⟨⟩ hdmt
    rw [hid] at hdmt
    have hlocal := h.localIf task htask
    rw [hinstance, instanceBasicSetup_isLocal]
    exact ⟨(hlocal hdmt).2, hone (hlocal.traverses hdmt)⟩

/-- A thread finishes: nothing is issued. -/
theorem Continues.throughout_finish (h : Continues dmt out todo) (id tid : ℕ) :
    Throughout Consecutive (out ++ [.finished id tid]) ∧
      Throughout (Gathered dmt) (out ++ [.finished id tid]) :=
  ⟨throughout_snoc.mpr ⟨h.consecutive, fun _ heq => SchedEvent.noConfusion heq⟩,
    throughout_snoc.mpr ⟨h.gathered, fun _ heq => SchedEvent.noConfusion heq⟩⟩

theorem lastInstance_finished (out : List SchedEvent) (id tid id' : ℕ) :
    lastInstance (out ++ [.finished id tid]) id' = lastInstance out id' :=
  lastInstance_snoc (fun _ heq => SchedEvent.noConfusion heq) id'

/-- **A thread of a task finishes**, but not the last one. -/
theorem Continues.finish_busy (h : Continues dmt out todo) (hid : id ∈ holders out tid)
    (hrun : Busy (out ++ [.finished id tid]) id) : Continues dmt (out ++ [.finished id tid]) todo := by
  have hbusy : ∀ id', Busy (out ++ [.finished id tid]) id' ↔ Busy out id' := by
    intro id'
    by_cases heq : id' = id
    · rw [heq]
      exact iff_of_true hrun ⟨tid, hid⟩
    · exact busy_finished_of_ne heq
  refine ⟨h.localIf, h.lt, fun t ht hidle => ?_, fun t ht hrun' => ?_, fun id' hother last hlast => ?_,
    (h.throughout_finish id tid).1, (h.throughout_finish id tid).2⟩
  · rw [lastInstance_finished]
    exact h.idle t ht fun hrun' => hidle ((hbusy _).mpr hrun')
  · rw [lastInstance_finished]
    exact h.busy t ht ((hbusy _).mp hrun')
  · rw [lastInstance_finished] at hlast
    exact h.ended id' hother last hlast

/-- **The last thread of a task finishes.** -/
theorem Continues.finish_idle (h : Continues dmt out todo) (htask : todo task)
    (hid : task.id ∈ holders out tid) (hidle : ¬ Busy (out ++ [.finished task.id tid]) task.id) :
    Continues dmt (out ++ [.finished task.id tid]) (AfterEpoch todo task) := by
  obtain ⟨last, hlast, hinstance⟩ := h.busy task htask ⟨tid, hid⟩
  have hbusy : ∀ id', id' ≠ task.id → (Busy (out ++ [.finished task.id tid]) id' ↔ Busy out id') :=
    fun id' hne => busy_finished_of_ne hne
  refine ⟨?_, ?_, ?_, ?_, fun id' hother last' hlast' => ?_,
    (h.throughout_finish task.id tid).1, (h.throughout_finish task.id tid).2⟩
  · rintro t (⟨ht, -⟩ | ⟨rfl, -⟩)
    · exact h.localIf t ht
    · exact (h.localIf task htask).incEpoch
  · rintro t (⟨ht, -⟩ | ⟨rfl, hnot⟩)
    · exact h.lt t ht
    · have hlt := h.lt task htask
      rw [Task.incEpoch_currentEpoch, Task.incEpoch_totalEpoch] at hnot ⊢
      omega
  · rintro t (⟨ht, hne⟩ | ⟨rfl, -⟩) hnot
    · rw [lastInstance_finished]
      exact h.idle t ht fun hrun => hnot ((hbusy _ hne).mpr hrun)
    · rw [lastInstance_finished]
      exact .inr ⟨last, hlast, by rw [hinstance, incEpoch_instanceBasicSetup]⟩
  · rintro t (⟨ht, hne⟩ | ⟨rfl, -⟩) hrun
    · rw [lastInstance_finished]
      exact h.busy t ht ((hbusy _ hne).mp hrun)
    · exact absurd hrun hidle
  · rw [lastInstance_finished] at hlast'
    by_cases heq : id' = task.id
    · subst heq
      obtain rfl := Option.some.inj (hlast.symm.trans hlast')
      have hdone : task.incEpoch.currentEpoch = task.incEpoch.totalEpoch := by
        by_contra hnot
        exact hother task.incEpoch (.inr ⟨rfl, hnot⟩) rfl
      rw [Instance.epoch, hinstance, instanceBasicSetup_currentEpoch, instanceBasicSetup_totalEpoch]
      exact hdone
    · refine h.ended id' (fun t ht hid' => ?_) last' hlast'
      exact hother t (.inl ⟨ht, fun hsame => heq (hid'.symm.trans hsame)⟩) hid'

/-- **New tasks are added**, of which nothing runs and nothing is left to do. -/
theorem Continues.add (h : Continues dmt out todo) {N : Task → Prop}
    (hnew : ∀ t, N t → t.currentEpoch = 0 ∧ 1 ≤ t.totalEpoch ∧ LocalIf dmt t ∧ ¬ Busy out t.id ∧
      ∀ t', todo t' → t'.id ≠ t.id) :
    Continues dmt out fun t => todo t ∨ N t := by
  refine ⟨?_, ?_, ?_, ?_, fun id hother => h.ended id fun t ht => hother t (.inl ht),
    h.consecutive, h.gathered⟩
  · rintro t (ht | ht)
    · exact h.localIf t ht
    · exact (hnew t ht).2.2.1
  · rintro t (ht | ht)
    · exact h.lt t ht
    · obtain ⟨hzero, hpos, -⟩ := hnew t ht
      omega
  · rintro t (ht | ht) hidle
    · exact h.idle t ht hidle
    · obtain ⟨hzero, -, -, -, hother⟩ := hnew t ht
      refine .inl ⟨?_, h.ended t.id hother⟩
      rw [instanceBasicSetup_currentEpoch, hzero]
  · rintro t (ht | ht) hbusy
    · exact h.busy t ht hbusy
    · exact absurd hbusy (hnew t ht).2.2.2.1

/-- An instance that has been placed continues its task. -/
theorem Continues.placed (h : Continues dmt out todo) {p p' : Placement} {candidateProc : List ℕ}
    (hplaced : Placement.Placed info out p (instanceBasicSetup task) candidateProc instance_ p')
    (htask : todo task) (hidle : ¬ Busy out task.id)
    (honly : ∀ t, todo t → t.id = task.id → t = task) :
    Continues dmt (out ++ [.issued instance_]) todo := by
  refine h.issue htask hidle honly hplaced.task_eq hplaced.ne_nil fun htraverses => ?_
  obtain ⟨pid, -, hall⟩ := hplaced.oneProcess htraverses
  exact ⟨pid, hall⟩

/-! ## The schedulers -/

/-- A scheduler that never rebooks, whose instances continue each other, on one process when they hand
their models over; and all epochs have been issued when it is finished. -/
structure HandsOver {σ : Type} (dmt : ℕ → Bool) (info : WorkerInfo) (S : TaskScheduler σ)
    (accepts : List SchedEvent → σ → List Task → Prop) (I : List SchedEvent → σ → Prop) : Prop
    extends Exclusive info S accepts I where
  consecutive : ∀ {out s}, I out s → Throughout Consecutive out
  gathered : ∀ {out s}, I out s → Throughout (Gathered dmt) out
  completed : ∀ {out s}, I out s → S.isFinished s = true → ∀ id instance_,
    lastInstance out id = some instance_ → instance_.epoch + 1 = instance_.task.totalEpoch

/-- **The rule**: the tasks that a scheduler has to work on are kept in step with what it issues. -/
theorem Exclusive.handsOver {σ : Type} {S : TaskScheduler σ}
    {accepts : List SchedEvent → σ → List Task → Prop} {I K : List SchedEvent → σ → Prop}
    {todo : σ → Task → Prop} (h : Exclusive info S accepts I)
    (hsubmit : ∀ {out s s' tasks}, I out s → K out s → Continues dmt out (todo s) →
      S.isFinished s = true → accepts out s tasks → New tasks → (∀ task ∈ tasks, LocalIf dmt task) →
      S.initTasks s tasks = some s' →
      K (out ++ [.submitted tasks]) s' ∧ Continues dmt out (todo s'))
    (hextract : ∀ {out s s' o d}, I out s → K out s → Continues dmt out (todo s) →
      S.extractInstances d s = some (s', o) → K (out ++ o) s' ∧ Continues dmt (out ++ o) (todo s'))
    (hfinish : ∀ {out s s' id tid time}, I out s → K out s → Continues dmt out (todo s) →
      id ∈ holders out tid → S.finishThread s id tid time = some s' →
      K (out ++ [.finished id tid]) s' ∧ Continues dmt (out ++ [.finished id tid]) (todo s'))
    (hdone : ∀ {out s}, I out s → S.isFinished s = true → ∀ t, ¬ todo s t) :
    HandsOver dmt info S (Transferable dmt accepts)
      fun out s => I out s ∧ K out s ∧ Continues dmt out (todo s) where
  submitted := by
    rintro out s s' tasks ⟨hI, hK, hcont⟩ hfinished ⟨haccepts, hnew, hlocal⟩ hstep
    obtain ⟨hK', hcont'⟩ := hsubmit hI hK hcont hfinished haccepts hnew hlocal hstep
    exact ⟨h.submitted hI hfinished haccepts hstep, hK', hcont'.snoc_of_none rfl⟩
  extracted hs hstep := ⟨h.extracted hs.1 hstep, hextract hs.1 hs.2.1 hs.2.2 hstep⟩
  finished hs hid hstep := ⟨h.finished hs.1 hid hstep, hfinish hs.1 hs.2.1 hs.2.2 hid hstep⟩
  events hs hstep := h.events hs.1 hstep
  fresh hs := h.fresh hs.1
  accounts hs := h.accounts hs.1
  idle hs := h.idle hs.1
  consecutive hs := hs.2.2.consecutive
  gathered hs := hs.2.2.gathered
  completed hs hfinished id := hs.2.2.ended id fun t ht => absurd ht (hdone hs.1 hfinished t)

/-- Tasks that can be submitted. -/
def Submittable (dmt : ℕ → Bool) (task : Task) : Prop :=
  task.currentEpoch = 0 ∧ 1 ≤ task.totalEpoch ∧ LocalIf dmt task

theorem submittable_of_new {tasks : List Task} (hnew : New tasks)
    (hlocal : ∀ task ∈ tasks, LocalIf dmt task) (htask : task ∈ tasks) : Submittable dmt task :=
  ⟨(hnew task htask).1, (hnew task htask).2, hlocal task htask⟩

namespace SequentialTaskScheduler

/-- The invariant: behind the front of the queue, the tasks are new. -/
def Waiting (dmt : ℕ → Bool) (s : SequentialTaskScheduler) : Prop :=
  ∀ task ∈ s.tasksQueue.tail, Submittable dmt task

/-- What the scheduler has to work on. -/
def ToRun (s : SequentialTaskScheduler) (task : Task) : Prop := s.tasksQueue.head? = some task

/-- The front of the queue is removed, or works on its next epoch. -/
theorem afterEpoch_iff (t : Task) (rest : List Task) (hne : task.incEpoch.currentEpoch ≠
    task.incEpoch.totalEpoch) : (task.incEpoch :: rest).head? = some t ↔
      AfterEpoch (fun t => (task :: rest).head? = some t) task t := by
  rw [List.head?_cons, Option.some.injEq]
  constructor
  · rintro rfl
    exact .inr ⟨rfl, hne⟩
  · rintro (⟨ht, hnot⟩ | ⟨rfl, -⟩)
    · rw [List.head?_cons, Option.some.injEq] at ht
      exact absurd (ht ▸ rfl) hnot
    · rfl

/-- The invariant of a scheduler whose tasks continue. -/
def Lasts (dmt : ℕ → Bool) (info : WorkerInfo) (out : List SchedEvent)
    (s : SequentialTaskScheduler) : Prop :=
  (Inv info out s ∧ Throughout OneAtATime out) ∧ Waiting dmt s ∧ Continues dmt out (ToRun s)

theorem lasts_start (dmt : ℕ → Bool) (info : WorkerInfo) : Lasts dmt info [] (.start info) := by
  refine ⟨⟨inv_start info, throughout_nil _⟩, fun task htask => absurd htask List.not_mem_nil,
    continues_nil dmt ?_⟩
  rintro task ⟨⟩

theorem handsOver (dmt : ℕ → Bool) (info : WorkerInfo) :
    HandsOver dmt info (scheduler info) (Transferable dmt AnyTasks) (Lasts dmt info) := by
  refine (exclusive info).handsOver (K := fun _ s => Waiting dmt s) ?_ ?_ ?_ ?_
  · rintro out s s' tasks ⟨hs, honce⟩ - hcont hfinished - hnew hlocal hstep
    have hnil : s.tasksQueue = [] := List.isEmpty_iff.mp hfinished
    have hidle := (exclusive info).idle ⟨hs, honce⟩ hfinished
    obtain ⟨-, rfl⟩ := init_cases hstep
    have hqueue : s.tasksQueue ++ tasks = tasks := by rw [hnil, List.nil_append]
    have hsubmit := fun t (ht : t ∈ tasks) => submittable_of_new hnew hlocal ht
    refine ⟨fun t ht => ?_, (hcont.add (N := fun t => tasks.head? = some t) fun t ht => ?_).congr
      fun t => ?_⟩
    · simp only [hqueue] at ht
      exact hsubmit t (List.mem_of_mem_tail ht)
    · obtain ⟨hzero, hpos, hlocal⟩ := hsubmit t (List.mem_of_head? ht)
      refine ⟨hzero, hpos, hlocal, hidle _, fun t' ht' => ?_⟩
      rw [ToRun, hnil] at ht'
      cases ht'
    · simp only [ToRun, hnil]
      exact (or_iff_right (by rintro ⟨⟩)).symm
  · rintro out s s' o d ⟨hs, -⟩ hwaiting hcont hstep
    rcases extract_cases hs.placement.sound hstep with ⟨rfl, rfl, -⟩ |
      ⟨task, rest, p', hqueue, hempty, rfl, ⟨instance_, rfl, hplaced⟩ | ⟨rfl, -⟩⟩
    · exact ⟨hwaiting, by rwa [List.append_nil]⟩
    · have hsame : ∀ t, ToRun ⟨task :: rest, p'⟩ t ↔ ToRun s t := fun t => by rw [ToRun, ToRun, hqueue]
      refine ⟨fun t ht => hwaiting t (hqueue ▸ ht), (hcont.placed hplaced ?_
        (hs.idle_iff.mp hempty _) fun t ht _ => ?_).congr hsame⟩
      · rw [ToRun, hqueue]
        rfl
      · rw [ToRun, hqueue] at ht
        exact (Option.some.inj ht).symm
    · have hsame : ∀ t, ToRun ⟨task :: rest, p'⟩ t ↔ ToRun s t := fun t => by rw [ToRun, ToRun, hqueue]
      exact ⟨fun t ht => hwaiting t (hqueue ▸ ht), (hcont.snoc_of_none rfl).congr hsame⟩
  · rintro out s s' id tid time ⟨hs, -⟩ hwaiting hcont hid hstep
    rcases finish_cases hs.placement.sound hid hstep with ⟨hrun, rfl⟩ |
      ⟨hidle, task, rest, hqueue, rfl⟩
    · exact ⟨hwaiting, hcont.finish_busy hid hrun⟩
    · obtain ⟨task', rest', hqueue', rfl⟩ := hs.front id ⟨tid, hid⟩
      obtain ⟨rfl, rfl⟩ := List.cons.inj (hqueue.symm.trans hqueue')
      have htodo : ToRun s task := by rw [ToRun, hqueue]; rfl
      have hafter := hcont.finish_idle htodo hid hidle
      have hrest : ∀ t ∈ rest, Submittable dmt t := fun t ht => hwaiting t (by rwa [hqueue])
      have hsame : ToRun s = fun t => (task :: rest).head? = some t :=
        funext fun t => by rw [ToRun, hqueue]
      rw [hsame] at hafter
      by_cases hdone : task.incEpoch.currentEpoch = task.incEpoch.totalEpoch
      · have hnext : nextEpoch task rest = rest := if_pos hdone
        rw [hnext]
        -- the next task comes to the front
        have hnone : ∀ t, ¬ AfterEpoch (fun t => (task :: rest).head? = some t) task t := by
          rintro t (⟨ht, hnot⟩ | ⟨rfl, hnot⟩)
          · rw [List.head?_cons, Option.some.injEq] at ht
            exact hnot (ht ▸ rfl)
          · exact hnot hdone
        refine ⟨fun t ht => hrest t (List.mem_of_mem_tail ht),
          (hafter.add (N := fun t => rest.head? = some t) fun t ht => ?_).congr fun t =>
            (or_iff_right (hnone t)).symm⟩
        obtain ⟨hzero, hpos, hlocal⟩ := hrest t (List.mem_of_head? ht)
        exact ⟨hzero, hpos, hlocal, hs.finish_idle hid hidle t.id, fun t' ht' => absurd ht' (hnone t')⟩
      · have hnext : nextEpoch task rest = task.incEpoch :: rest := if_neg hdone
        rw [hnext]
        exact ⟨hrest, hafter.congr fun t => afterEpoch_iff t rest hdone⟩
  · intro out s _ hfinished t ht
    have hnil : s.tasksQueue = [] := List.isEmpty_iff.mp hfinished
    rw [ToRun, hnil] at ht
    cases ht

end SequentialTaskScheduler

/-! ## Schedulers with a list of tasks -/

/-- The tasks of a list that are not marked as finished. -/
def Unfinished (tasks : List Task) (status : List TaskStatus) (task : Task) : Prop :=
  ∃ i : ℕ, tasks[i]? = some task ∧ status[i]? ≠ some TaskStatus.finished

section Unfinished

variable {tasks : List Task} {status : List TaskStatus} {t : Task} {i : ℕ}

theorem not_unfinished (hlength : status.length = tasks.length)
    (hall : status.all (· = TaskStatus.finished) = true) : ¬ Unfinished tasks status t := by
  rintro ⟨i, hi, hnot⟩
  have hlt : i < status.length := by
    rw [hlength]
    exact (List.getElem?_eq_some_iff.mp hi).1
  rw [List.getElem?_eq_getElem hlt] at hnot
  have hfinished := List.all_eq_true.mp hall _ (List.getElem_mem hlt)
  exact hnot (congrArg some (of_decide_eq_true hfinished))

theorem unfinished_replicate (tasks : List Task) :
    Unfinished tasks (List.replicate tasks.length .ready) t ↔ t ∈ tasks := by
  constructor
  · rintro ⟨i, hi, -⟩
    exact List.mem_of_getElem? hi
  · intro ht
    obtain ⟨i, hi⟩ := List.mem_iff_getElem?.mp ht
    refine ⟨i, hi, fun heq => ?_⟩
    rw [List.getElem?_replicate_of_lt (List.getElem?_eq_some_iff.mp hi).1] at heq
    cases heq

/-- A task that has been marked as running was not finished, and is not. -/
theorem unfinished_running (hready : status[i]? = some TaskStatus.ready) :
    Unfinished tasks (status.set i .running) t ↔ Unfinished tasks status t := by
  refine exists_congr fun j => and_congr_right fun _ => not_congr ?_
  by_cases hij : i = j
  · subst hij
    rw [List.getElem?_set_self (List.getElem?_eq_some_iff.mp hready).1, hready]
    exact iff_of_false nofun nofun
  · rw [List.getElem?_set_ne hij]

/-- The last thread of a task finishes. -/
theorem unfinished_set (hlength : status.length = tasks.length)
    (hids : ∀ {i j : ℕ} {t t' : Task}, tasks[i]? = some t → tasks[j]? = some t' → t.id = t'.id → i = j)
    (htask : tasks[i]? = some task) :
    Unfinished (tasks.set i task.incEpoch) (status.set i
      (if task.incEpoch.currentEpoch = task.incEpoch.totalEpoch then .finished else .ready)) t ↔
      AfterEpoch (Unfinished tasks status) task t := by
  have hlt := (List.getElem?_eq_some_iff.mp htask).1
  constructor
  · rintro ⟨j, hj, hnot⟩
    by_cases hij : i = j
    · subst hij
      rw [List.getElem?_set_self hlt] at hj
      rw [List.getElem?_set_self (hlength ▸ hlt)] at hnot
      obtain rfl := Option.some.inj hj
      exact .inr ⟨rfl, fun hdone => hnot (by rw [if_pos hdone])⟩
    · rw [List.getElem?_set_ne hij] at hj hnot
      exact .inl ⟨⟨j, hj, hnot⟩, fun heq => hij (hids htask hj heq.symm)⟩
  · rintro (⟨⟨j, hj, hnot⟩, hne⟩ | ⟨rfl, hnot⟩)
    · have hij : i ≠ j := by
        rintro rfl
        exact hne (Option.some.inj (htask.symm.trans hj) ▸ rfl)
      refine ⟨j, ?_, ?_⟩
      · rwa [List.getElem?_set_ne hij]
      · rwa [List.getElem?_set_ne hij]
    · refine ⟨i, List.getElem?_set_self hlt, ?_⟩
      rw [List.getElem?_set_self (hlength ▸ hlt), if_neg hnot]
      nofun

end Unfinished

namespace GreedyTaskScheduler

/-- What the scheduler has to work on. -/
def ToRun (s : GreedyTaskScheduler) : Task → Prop := Unfinished s.tasks s.taskStatus

/-- The invariant of a scheduler whose tasks continue. -/
def Lasts (dmt : ℕ → Bool) (info : WorkerInfo) (out : List SchedEvent) (s : GreedyTaskScheduler) :
    Prop :=
  (Inv info out s ∧ Throughout OneAtATime out) ∧ True ∧ Continues dmt out s.ToRun

theorem lasts_start (dmt : ℕ → Bool) (info : WorkerInfo) : Lasts dmt info [] (.start info) :=
  ⟨⟨inv_start info, throughout_nil _⟩, trivial, continues_nil dmt fun _ => not_unfinished rfl rfl⟩

theorem handsOver (dmt : ℕ → Bool) (info : WorkerInfo) :
    HandsOver dmt info (scheduler info) (Transferable dmt DistinctTasks) (Lasts dmt info) := by
  refine (exclusive info).handsOver (K := fun _ _ => True) ?_ ?_ ?_
    fun hs hfinished _ => not_unfinished hs.1.length hfinished
  · rintro out s s' tasks ⟨hs, -⟩ - hcont hfinished - hnew hlocal hstep
    obtain ⟨-, rfl⟩ := init_cases hstep
    have hnone : ∀ t, ¬ s.ToRun t := fun t => not_unfinished hs.length hfinished
    refine ⟨trivial, (hcont.add (N := fun t => t ∈ tasks) fun t ht => ?_).congr fun t => ?_⟩
    · obtain ⟨hzero, hpos, hlocal⟩ := submittable_of_new hnew hlocal ht
      exact ⟨hzero, hpos, hlocal, hs.not_busy hfinished _, fun t' ht' => absurd ht' (hnone t')⟩
    · exact (unfinished_replicate tasks).trans (or_iff_right (hnone t)).symm
  · rintro out s s' o d ⟨hs, -⟩ - hcont hstep
    refine ⟨trivial, (run_along (I := fun out s => Inv info out s ∧ Continues dmt out s.ToRun)
      (fun {out s i s' o} hs _ hstep => ⟨hs.1.consider hstep, ?_⟩) ⟨hs, hcont⟩
      (along_of_forall (P := fun _ => True) (fun _ _ => trivial) out s) hstep).2⟩
    obtain ⟨hs, hcont⟩ := hs
    obtain ⟨task, status, htask, hstatus, ⟨-, rfl, rfl⟩ | ⟨rfl, instance_, p', hplaced, rfl, rfl⟩ |
      ⟨-, p', -, rfl, rfl⟩⟩ := consider_cases hs.placement.sound hstep
    · rwa [List.append_nil]
    · refine (hcont.placed hplaced ⟨i, htask, hstatus ▸ nofun⟩ (hs.ready htask hstatus)
        fun t ⟨j, hj, _⟩ hid => ?_).congr fun t => unfinished_running hstatus
      obtain rfl := index_eq hs.nodup hj htask hid
      exact Option.some.inj (hj.symm.trans htask)
    · rwa [List.append_nil]
  · rintro out s s' id tid time ⟨hs, -⟩ - hcont hid hstep
    refine ⟨trivial, ?_⟩
    rcases finish_cases hs.placement.sound hid hstep with
      ⟨hrun, rfl⟩ | ⟨hidle, idx, task, hidx, htask, rfl⟩
    · exact hcont.finish_busy hid hrun
    · obtain ⟨idx', task', hidx', htask', rfl⟩ := hs.find ⟨tid, hid⟩
      obtain rfl := Option.some.inj (hidx.symm.trans hidx')
      obtain rfl := Option.some.inj (htask.symm.trans htask')
      have hrunning := (hs.status idx task htask).mpr ⟨tid, hid⟩
      exact (hcont.finish_idle ⟨idx, htask, hrunning ▸ nofun⟩ hid hidle).congr fun t =>
        unfinished_set hs.length (index_eq hs.nodup) htask

end GreedyTaskScheduler

namespace PriorityTaskScheduler

/-- What the scheduler has to work on. -/
def ToRun (s : PriorityTaskScheduler) : Task → Prop :=
  Unfinished s.taskManager.tasks s.taskManager.taskStatus

/-- The tasks count their epochs. -/
theorem unfinished_iff {tasks₀ tasks : List Task} {status : List TaskStatus} {t : Task}
    (h : EpochsAt tasks₀ out tasks status) :
    Unfinished tasks status t ↔ t ∈ tasks ∧ t.currentEpoch ≠ t.totalEpoch := by
  rw [List.mem_iff_getElem?]
  constructor
  · rintro ⟨i, hi, hnot⟩
    exact ⟨⟨i, hi⟩, fun heq => hnot ((h.finished i t hi).mpr heq)⟩
  · rintro ⟨⟨i, hi⟩, hne⟩
    exact ⟨i, hi, fun heq => hne ((h.finished i t hi).mp heq)⟩

/-- An id is a position. -/
theorem index_eq {m : TaskManager} {busy : ℕ → Prop} (h : m.Inv busy) {i j : ℕ} {t t' : Task}
    (hi : m.tasks[i]? = some t) (hj : m.tasks[j]? = some t') (hid : t.id = t'.id) : i = j := by
  rw [← h.ids i t hi, ← h.ids j t' hj, hid]

/-- The invariant of a scheduler whose tasks continue. -/
def Lasts (dmt : ℕ → Bool) (info : WorkerInfo) (out : List SchedEvent) (s : PriorityTaskScheduler) :
    Prop :=
  ((∃ tasks₀, Inv info tasks₀ out s) ∧ Throughout OneAtATime out) ∧
    (∃ tasks₀, New tasks₀ ∧ Inv info tasks₀ out s) ∧ Continues dmt out s.ToRun

theorem lasts_start (dmt : ℕ → Bool) (info : WorkerInfo) : Lasts dmt info [] (.start info) :=
  ⟨⟨⟨[], inv_start info⟩, throughout_nil _⟩,
    ⟨[], fun _ htask => absurd htask List.not_mem_nil, inv_start info⟩,
    continues_nil dmt fun _ => not_unfinished rfl rfl⟩

theorem handsOver (dmt : ℕ → Bool) (info : WorkerInfo) :
    HandsOver dmt info (scheduler info) (Transferable dmt IndexedTasks) (Lasts dmt info) := by
  refine (exclusive info).handsOver (K := fun out s => ∃ tasks₀, New tasks₀ ∧ Inv info tasks₀ out s)
    ?_ ?_ ?_ fun ⟨⟨_, hs⟩, _⟩ hfinished _ => not_unfinished hs.manager.status_length hfinished
  · rintro out s s' tasks - ⟨tasks₀, hnew₀, hs⟩ hcont hfinished hids hnew hlocal hstep
    obtain rfl := Option.some.inj hstep
    have hindexed : Indexed s.taskManager.tasks.length tasks := hids
    have hs' := hs.init (hs.length ▸ hindexed)
    have hnew' : New (tasks₀ ++ tasks) := new_append.mpr ⟨hnew₀, hnew⟩
    have hnone : ∀ t, ¬ s.ToRun t := fun t => not_unfinished hs.manager.status_length hfinished
    refine ⟨⟨_, hnew', hs'⟩, (hcont.add (N := fun t => t ∈ tasks) fun t ht => ?_).congr
      fun t => ?_⟩
    · obtain ⟨hzero, hpos, hlocal⟩ := submittable_of_new hnew hlocal ht
      refine ⟨hzero, hpos, hlocal, fun hbusy => ?_, fun t' ht' => absurd ht' (hnone t')⟩
      have hrunning := (hs.manager.running t.id).mpr hbusy
      have hstatus := List.all_eq_true.mp hfinished _ (List.mem_of_getElem? hrunning)
      cases of_decide_eq_true hstatus
    · rw [ToRun, unfinished_iff (hs'.epochs hnew'), ToRun, unfinished_iff (hs.epochs hnew₀)]
      have htasks : (initTasks s tasks).taskManager.tasks = s.taskManager.tasks ++ tasks := rfl
      rw [htasks, List.mem_append]
      constructor
      · rintro ⟨ht | ht, hne⟩
        · exact .inl ⟨ht, hne⟩
        · exact .inr ht
      · rintro (⟨ht, hne⟩ | ht)
        · exact ⟨.inl ht, hne⟩
        · obtain ⟨hzero, hpos, -⟩ := submittable_of_new hnew hlocal ht
          exact ⟨.inr ht, by omega⟩
  · rintro out s s' o d - ⟨tasks₀, hnew₀, hs⟩ hcont hstep
    have hleft : ∀ {out s₁}, Inv info tasks₀ out s₁ →
        s₁.taskManager.tasks = s.taskManager.tasks → ∀ t, s₁.ToRun t ↔ s.ToRun t := by
      intro out s₁ hs₁ htasks t
      rw [ToRun, ToRun, unfinished_iff (hs₁.epochs hnew₀), unfinished_iff (hs.epochs hnew₀), htasks]
    have honly : ∀ {id : ℕ} {task}, s.taskManager.tasks[id]? = some task → ∀ t, s.ToRun t →
        t.id = task.id → t = task := by
      rintro id task htask t ⟨i, hi, -⟩ hid
      obtain rfl := index_eq hs.manager hi htask hid
      exact Option.some.inj (hi.symm.trans htask)
    have hinv := hs.extract_invariant (J := fun out _ => Continues dmt out s.ToRun) hcont ?_ ?_ hstep
    · obtain ⟨hs', hcont', htasks⟩ := hinv
      exact ⟨⟨tasks₀, hnew₀, hs'⟩, hcont'.congr (hleft hs' htasks)⟩
    · intro out l l' o id hcont hsound hidle hangry hstep
      obtain ⟨task, p', htask, ⟨instance_, hplaced, -, rfl⟩ | ⟨-, -, rfl⟩⟩ :=
        considerAngry_cases hsound hs.manager.ids hstep
      · refine hcont.placed hplaced ⟨id, htask, hangry ▸ nofun⟩ ?_ (honly htask)
        rwa [hs.manager.ids id task htask]
      · exact hcont.snoc_of_none rfl
    · intro out s₁ s' o lock id hcont hs₁ hidle htasks hready hstep
      obtain ⟨task, p', m', htask, -, ⟨instance_, hplaced, -, rfl⟩ | ⟨-, -, rfl⟩⟩ :=
        considerReady_cases hs₁.placement.sound hs₁.manager.ids hstep
      · refine hcont.placed hplaced ((hleft hs₁ htasks task).mp ⟨id, htask, hready ▸ nofun⟩) ?_
          (honly (htasks ▸ htask))
        rwa [hs₁.manager.ids id task htask]
      · rwa [List.append_nil]
  · rintro out s s' id tid time - ⟨tasks₀, hnew₀, hs⟩ hcont hid hstep
    refine ⟨⟨tasks₀, hnew₀, hs.finish hid hstep⟩, ?_⟩
    rcases finish_cases hs.placement.sound hid hstep with ⟨hrun, rfl⟩ | ⟨hidle, m', hm, rfl⟩
    · exact hcont.finish_busy hid hrun
    · obtain ⟨task, htask, rfl⟩ := TaskManager.finishThread_last hm
      obtain rfl := hs.manager.ids id task htask
      have hrunning := (hs.manager.running task.id).mpr ⟨tid, hid⟩
      exact (hcont.finish_idle ⟨task.id, htask, hrunning ▸ nofun⟩ hid hidle).congr fun t =>
        unfinished_set hs.manager.status_length (index_eq hs.manager) htask

end PriorityTaskScheduler

end FlexPS.Scheduler
