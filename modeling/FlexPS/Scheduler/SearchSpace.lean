import FlexPS.Lib.Staircase
import FlexPS.Scheduler.SubEpochs
import Mathlib.Data.Int.ConditionallyCompleteOrder
import Mathlib.Order.ConditionallyCompleteLattice.Basic

/-!
# The search space of a stage

A stage searches between the best parallelism of the next smaller batch size and that of the next
larger one, and what it finds is kept for its own batch size.  The bounds come from earlier
searches, whose own bounds came from still earlier ones: what is kept never decreases with the batch
size, so that the search space is never empty.

## Main definitions

* `AutoParallelismPolicy.InSpace` — what holds of the policy between its calls.
* `AutoParallelismTaskScheduler.SpaceAt` — the policy searches for the task at the front.
* `AutoParallelismPolicy.SpaceOrdered`, `AutoParallelismTaskScheduler.search_space_ordered` — the
  search space stays ordered over all stages.
-/

namespace FlexPS.Scheduler

open Lib

namespace AutoParallelismPolicy

variable {p p' : AutoParallelismPolicy} {best : ℤ}

/-- The best parallelism does not decrease with the batch size, and is one to ten. -/
structure BestOrdered (history : List (ℤ × ℤ)) : Prop where
  staircase : Staircase history
  range : ∀ kv ∈ history, 1 ≤ kv.2 ∧ kv.2 ≤ 10

theorem bestOrdered_nil : BestOrdered [] := ⟨staircase_nil, fun _ hkv => absurd hkv List.not_mem_nil⟩

theorem findBest_eq_none (p : AutoParallelismPolicy) (batchsize : ℤ) :
    p.findBest batchsize = none ↔
      ∀ kv ∈ p.batchsizeToBestParallelismHistory, kv.1 ≠ batchsize := by
  rw [findBest, Option.map_eq_none_iff, List.find?_eq_none]
  refine forall₂_congr fun kv _ => ?_
  rw [decide_eq_true_iff]

theorem BestOrdered.findBest (h : BestOrdered p.batchsizeToBestParallelismHistory) {batchsize : ℤ}
    (hbest : p.findBest batchsize = some best) : 1 ≤ best ∧ best ≤ 10 := by
  obtain ⟨kv, hkv, rfl⟩ := Option.map_eq_some_iff.mp hbest
  exact h.range kv (List.mem_of_find?_eq_some hkv)

/-- **Keeping what a search has found.**  It is in the gap of the batch size, unless that batch size
has been seen before. -/
theorem BestOrdered.insertBest (h : BestOrdered p.batchsizeToBestParallelismHistory)
    {batchsize : ℤ} (hrange : 1 ≤ best ∧ best ≤ 10)
    (hgap : p.findBest batchsize = none →
      Gap p.batchsizeToBestParallelismHistory batchsize best best) :
    BestOrdered (p.insertBest batchsize best).batchsizeToBestParallelismHistory := by
  unfold AutoParallelismPolicy.insertBest
  split
  · exact h
  · next hnone =>
      have hnew := (p.findBest_eq_none batchsize).mp hnone
      refine ⟨h.staircase.insert hnew (hgap hnone), fun kv hkv => ?_⟩
      rcases (List.mem_orderedInsert _).mp hkv with rfl | hkv
      · exact hrange
      · exact h.range kv hkv

/-- **The pruned search space** is a gap of the batch size, and not empty. -/
theorem prune_spec (batchsize : ℤ) {history : List (ℤ × ℤ)} (h : Staircase history) {min max : ℤ}
    (hrange : ∀ kv ∈ history, min ≤ kv.2 ∧ kv.2 ≤ max) (hle : min ≤ max) :
    min ≤ (prune batchsize history (min, max)).1 ∧
      (prune batchsize history (min, max)).1 ≤ (prune batchsize history (min, max)).2 ∧
      (prune batchsize history (min, max)).2 ≤ max ∧
      Gap history batchsize (prune batchsize history (min, max)).1
        (prune batchsize history (min, max)).2 := by
  induction history generalizing min with
  | nil => exact ⟨le_rfl, hle, le_rfl, gap_nil _ _ _⟩
  | cons kv history ih =>
      obtain ⟨hhead, htail⟩ := List.pairwise_cons.mp h
      obtain ⟨hmin, hmax⟩ := hrange kv (List.mem_cons_self ..)
      by_cases hlt : kv.1 < batchsize
      · rw [prune, if_pos hlt]
        have hrest : ∀ kv' ∈ history, kv.2 ≤ kv'.2 ∧ kv'.2 ≤ max := fun kv' hkv' =>
          ⟨(hhead kv' hkv').2, (hrange kv' (List.mem_cons_of_mem _ hkv')).2⟩
        obtain ⟨hlow, hmid, hhigh, hgap⟩ := ih htail hrest hmax
        refine ⟨hmin.trans hlow, hmid, hhigh, gap_cons.mpr ⟨⟨fun _ => hlow, fun hge => ?_⟩, hgap⟩⟩
        exact absurd hlt (not_lt.mpr hge)
      · rw [prune, if_neg hlt]
        refine ⟨le_rfl, hmin, hmax, gap_cons.mpr ⟨⟨fun hlt' => absurd hlt' hlt, fun _ => le_rfl⟩,
          fun kv' hkv' => ⟨fun hlt' => ?_, fun _ => (hhead kv' hkv').2⟩⟩⟩
        exact absurd ((hhead kv' hkv').1.trans hlt') hlt

/-! ## The calls of the policy -/

/-- What a stage has tried is in its search space. -/
structure Tried (p : AutoParallelismPolicy) : Prop where
  history : BestOrdered p.batchsizeToBestParallelismHistory
  times : p.times.length = p.subEpoch
  workers : p.workerPerProcessHistory.length = p.subEpoch
  range : 1 ≤ p.minWorkerPerProcess ∧ p.minWorkerPerProcess ≤ p.maxWorkerPerProcess ∧
    p.maxWorkerPerProcess ≤ 10
  tried : ∀ w ∈ p.workerPerProcessHistory, p.minWorkerPerProcess ≤ w ∧ w ≤ p.maxWorkerPerProcess

/-- The number of workers that has been planned, if any, is in the search space, which until the
parallelism is fixed is a gap of the batch size. -/
structure InSpace (p : AutoParallelismPolicy) : Prop extends Tried p where
  current : p.currentWorkerPerProcess ≠ 0 → p.minWorkerPerProcess ≤ p.currentWorkerPerProcess ∧
    p.currentWorkerPerProcess ≤ p.maxWorkerPerProcess
  gap : p.currentWorkerPerProcess ≠ 0 → p.fixed = false →
    Gap p.batchsizeToBestParallelismHistory p.currentBatchsize p.minWorkerPerProcess
      p.maxWorkerPerProcess
  first : p.currentWorkerPerProcess = 0 → p.fixed = false ∧ p.subEpoch = 0 ∧
    p.minWorkerPerProcess = 1 ∧ p.maxWorkerPerProcess = 10

/-- A plan: a number of workers of the search space. -/
structure InPlan (p : AutoParallelismPolicy) : Prop extends InSpace p where
  planned : p.currentWorkerPerProcess ≠ 0

/-- Between two stages. -/
theorem inSpace_resetStage (h : BestOrdered p.batchsizeToBestParallelismHistory) :
    p.resetStage.InSpace where
  history := h
  times := rfl
  workers := rfl
  range := ⟨le_rfl, (by decide : (1 : ℤ) ≤ 10), le_rfl⟩
  tried _ hw := absurd hw List.not_mem_nil
  current hne := absurd rfl hne
  gap hne := absurd rfl hne
  first _ := ⟨rfl, rfl, rfl, rfl⟩

/-- Keeping a number of the search space for the batch size. -/
theorem Tried.keptHistory (h : p.Tried)
    (hbest : p.minWorkerPerProcess ≤ best ∧ best ≤ p.maxWorkerPerProcess)
    (hgap : p.findBest p.currentBatchsize = none →
      Gap p.batchsizeToBestParallelismHistory p.currentBatchsize best best) :
    BestOrdered (p.keptHistory best) := by
  obtain ⟨hone, -, hten⟩ := h.range
  unfold AutoParallelismPolicy.keptHistory
  split
  · exact h.history.insertBest (by omega) hgap
  · exact h.history

/-- Fixing the parallelism to a number of the search space. -/
theorem Tried.fixParallelism (h : p.Tried)
    (hbest : p.minWorkerPerProcess ≤ best ∧ best ≤ p.maxWorkerPerProcess)
    (hgap : p.findBest p.currentBatchsize = none →
      Gap p.batchsizeToBestParallelismHistory p.currentBatchsize best best) :
    ∃ p', p.fixParallelism best = some p' ∧ p'.InPlan := by
  have hpositive : best ≠ 0 := by
    have := h.range
    omega
  rw [fixParallelism_eq, if_pos (h.times.trans h.workers.symm)]
  refine ⟨_, rfl, { h with
    history := h.keptHistory hbest hgap
    current := fun _ => hbest
    gap := nofun
    first := ?_
    planned := ?_ }⟩
  · exact fun hzero => absurd hzero hpositive
  · exact hpositive

/-- One more worker per process, or the number before the last when the last was worse. -/
theorem Tried.increase (h : p.Tried)
    (hgap : Gap p.batchsizeToBestParallelismHistory p.currentBatchsize p.minWorkerPerProcess
      p.maxWorkerPerProcess)
    (hnext : p.minWorkerPerProcess ≤ p.currentWorkerPerProcess + 1) :
    ∃ p', p.increase = some p' ∧ p'.InPlan := by
  obtain ⟨hone, hle, hten⟩ := h.range
  by_cases hworse : p.Worse
  · have hlt : p.subEpoch - 2 < p.workerPerProcessHistory.length := by
      have := hworse.1
      rw [h.workers]
      omega
    have hbest := h.tried _ (List.getElem_mem hlt)
    rw [increase_of_worse h.times.symm hworse, List.getElem?_eq_getElem hlt, Option.bind_some]
    exact h.fixParallelism hbest fun _ => hgap.mono hbest.1 hbest.2
  · have hcurrent : p.minWorkerPerProcess ≤ p.oneMore.currentWorkerPerProcess ∧
        p.oneMore.currentWorkerPerProcess ≤ p.maxWorkerPerProcess ∧
        p.oneMore.currentWorkerPerProcess ≠ 0 := by
      simp only [oneMore]
      split
      · omega
      · omega
    obtain ⟨hmin, hmax, hpositive⟩ := hcurrent
    refine ⟨_, increase_of_not_worse h.times.symm hworse, { h with
      current := fun _ => ⟨hmin, hmax⟩
      gap := fun _ _ => hgap
      first := fun hzero => absurd hzero hpositive
      planned := hpositive }⟩

/-- **Planning a sub-epoch** never fails, and plans a number of the search space. -/
theorem InSpace.generatePlan (h : p.InSpace) : ∃ p', p.generatePlan = some p' ∧ p'.InPlan := by
  unfold AutoParallelismPolicy.generatePlan
  cases hfixed : p.fixed with
  | true =>
      have hplanned : p.currentWorkerPerProcess ≠ 0 := fun hzero => by
        have := (h.first hzero).1
        rw [hfixed] at this
        cases this
      exact ⟨p, rfl, { h with planned := hplanned }⟩
  | false =>
      rw [if_neg Bool.false_ne_true]
      unfold subGeneratePlan
      by_cases hzero : p.currentWorkerPerProcess = 0
      · obtain ⟨-, hsub, hmin, hmax⟩ := h.first hzero
        rw [if_pos hzero]
        cases hfind : p.findBest p.currentBatchsize with
        | some best =>
            have hrange := h.history.findBest hfind
            rw [← hmin, ← hmax] at hrange
            exact h.toTried.fixParallelism hrange fun hnone => by
              rw [hfind] at hnone
              cases hnone
        | none =>
            by_cases hnil : p.batchsizeToBestParallelismHistory = []
            · simp only [if_pos hnil]
              refine h.toTried.increase ?_ (by omega)
              rw [hnil]
              exact gap_nil _ _ _
            · simp only [if_neg hnil]
              obtain ⟨hone, -, hten⟩ := h.range
              have hrange := h.history.range
              rw [← hmin, ← hmax] at hrange
              obtain ⟨hlow, hmid, hhigh, hgap⟩ := prune_spec p.currentBatchsize h.history.staircase
                hrange h.range.2.1
              generalize hspace : prune p.currentBatchsize p.batchsizeToBestParallelismHistory
                (p.minWorkerPerProcess, p.maxWorkerPerProcess) = space at hlow hmid hhigh hgap
              have htried : Tried { p with
                  minWorkerPerProcess := space.1
                  maxWorkerPerProcess := space.2 } := by
                have hempty : p.workerPerProcessHistory = [] := by
                  rw [← List.length_eq_zero_iff, h.workers, hsub]
                refine { h with range := ?_, tried := fun w hw => ?_ }
                · exact ⟨hone.trans hlow, hmid, hhigh.trans hten⟩
                · have hw : w ∈ p.workerPerProcessHistory := hw
                  rw [hempty] at hw
                  cases hw
              rw [if_pos hmid]
              by_cases heq : space.1 = space.2
              · rw [if_pos heq]
                refine htried.fixParallelism ⟨le_rfl, hmid⟩ fun _ => ?_
                exact hgap.mono le_rfl heq.le
              · rw [if_neg heq]
                refine Tried.increase (p := { p with
                  minWorkerPerProcess := space.1
                  maxWorkerPerProcess := space.2
                  currentWorkerPerProcess := space.1 - 1 }) { htried with } hgap ?_
                exact (sub_add_cancel space.1 1).ge
      · rw [if_neg hzero]
        have hcurrent := h.current hzero
        exact h.toTried.increase (h.gap hzero hfixed) (by omega)

/-- **A sub-epoch is over**: what it has tried was in the search space. -/
theorem InPlan.finishSubepoch (h : p.InPlan) (time : ℕ) : (p.finishSubepoch time).1.InPlan := by
  refine { h with times := ?_, workers := ?_, tried := fun w hw => ?_, first := ?_ }
  · rw [AutoParallelismPolicy.finishSubepoch, List.length_append, h.times, List.length_singleton]
  · rw [AutoParallelismPolicy.finishSubepoch, List.length_append, h.workers, List.length_singleton]
  · rcases List.mem_append.mp hw with hw | hw
    · exact h.tried w hw
    · rw [List.mem_singleton.mp hw]
      exact h.current h.planned
  · exact fun hzero => absurd hzero h.planned

/-- **A stage is started** after the one before it has been reset. -/
theorem InSpace.startStage (h : p.InSpace) (hreset : p.currentWorkerPerProcess = 0)
    (totalIters batchsize : ℤ) : ∃ p', p.startStage totalIters batchsize = some p' ∧ p'.InSpace := by
  obtain ⟨-, -, hmin, hmax⟩ := h.first hreset
  have hnew : InSpace { p with
      numTotalIters := totalIters
      currentBatchsize := batchsize } :=
    { h with
      current := fun hne => absurd hreset hne
      gap := fun hne => absurd hreset hne }
  unfold AutoParallelismPolicy.startStage
  simp only
  split
  · next best hfind =>
      split
      · have hrange := hnew.history.findBest hfind
        rw [← hmin, ← hmax] at hrange
        obtain ⟨p', hfix, hplan⟩ := hnew.toTried.fixParallelism hrange fun hnone => by
          rw [hfind] at hnone
          cases hnone
        exact ⟨p', hfix, hplan.toInSpace⟩
      · exact ⟨_, rfl, hnew⟩
  · exact ⟨_, rfl, hnew⟩

/-- **The search space is ordered**: the best parallelism does not decrease with the batch size and
is one to ten, every sub-epoch has a time and a number of workers, and the next plan does not fail
and is a number of the search space. -/
structure SpaceOrdered (p : AutoParallelismPolicy) : Prop where
  history : p.batchsizeToBestParallelismHistory.Pairwise fun kv kv' => kv.1 < kv'.1 ∧ kv.2 ≤ kv'.2
  range : ∀ kv ∈ p.batchsizeToBestParallelismHistory, 1 ≤ kv.2 ∧ kv.2 ≤ 10
  times : p.times.length = p.subEpoch
  workers : p.workerPerProcessHistory.length = p.subEpoch
  space : p.currentWorkerPerProcess = 0 →
    (prune p.currentBatchsize p.batchsizeToBestParallelismHistory
      (p.minWorkerPerProcess, p.maxWorkerPerProcess)).1 ≤
    (prune p.currentBatchsize p.batchsizeToBestParallelismHistory
      (p.minWorkerPerProcess, p.maxWorkerPerProcess)).2
  plan : ∃ p', p.generatePlan = some p' ∧ p'.minWorkerPerProcess ≤ p'.currentWorkerPerProcess ∧
    p'.currentWorkerPerProcess ≤ p'.maxWorkerPerProcess

theorem InSpace.spaceOrdered (h : p.InSpace) : p.SpaceOrdered := by
  refine ⟨h.history.staircase, h.history.range, h.times, h.workers, fun hzero => ?_, ?_⟩
  · obtain ⟨-, -, hmin, hmax⟩ := h.first hzero
    have hrange := h.history.range
    rw [← hmin, ← hmax] at hrange
    exact (prune_spec p.currentBatchsize h.history.staircase hrange h.range.2.1).2.1
  · obtain ⟨p', hplan, hin⟩ := h.generatePlan
    exact ⟨p', hplan, hin.current hin.planned⟩

end AutoParallelismPolicy

/-! ## Runs -/

namespace AutoParallelismTaskScheduler

variable {info : WorkerInfo} {out o : List SchedEvent} {s s' : AutoParallelismTaskScheduler}
  {queue rest : List Task} {policy policy' : AutoParallelismPolicy} {task : Task} {d : Draw}
  {id tid time epoch : ℕ}

/-- A stage of the task at the front is searched. -/
def AtStage (queue : List Task) : Prop :=
  ∃ task rest epochIters batchsizes current, queue = task :: rest ∧
    task.type = .autoParallelism epochIters batchsizes current

/-- The policy searches for the task at the front, and has planned what runs. -/
structure SpaceAt (out : List SchedEvent) (queue : List Task) (policy : AutoParallelismPolicy) :
    Prop where
  space : policy.InSpace
  planned : AtStage queue → (∃ id, Busy out id) → policy.currentWorkerPerProcess ≠ 0
  reset : ¬ AtStage queue → policy.currentWorkerPerProcess = 0

/-- A stage that is started, or another kind of task. -/
theorem spaceAt_startStage (h : policy.InSpace) (hreset : policy.currentWorkerPerProcess = 0)
    (hidle : ∀ id, ¬ Busy out id) (hstart : startStage policy task epoch = some policy') :
    SpaceAt out (task :: rest) policy' := by
  have hstarted : ∀ {iters batchsize : ℤ}, policy.startStage iters batchsize = some policy' →
      policy'.InSpace := by
    intro iters batchsize hstart
    obtain ⟨p', hp', hspace⟩ := h.startStage hreset iters batchsize
    obtain rfl := Option.some.inj (hstart.symm.trans hp')
    exact hspace
  unfold startStage at hstart
  split at hstart
  · next epochIters batchsizes current htype =>
      have hat : AtStage (task :: rest) := ⟨task, rest, _, _, _, rfl, htype⟩
      refine ⟨?_, fun _ hbusy => absurd hbusy (not_exists.mpr hidle), fun hnot => absurd hat hnot⟩
      obtain ⟨iters, -, hstart⟩ := Option.bind_eq_some_iff.mp hstart
      split at hstart
      · exact hstarted hstart
      · split at hstart
        · obtain ⟨batchsize, -, hstart⟩ := Option.bind_eq_some_iff.mp hstart
          exact hstarted hstart
        · cases hstart
  · obtain rfl := Option.some.inj hstart
    exact ⟨h, fun _ hbusy => absurd hbusy (not_exists.mpr hidle), fun _ => hreset⟩

/-- The first stage of the next task. -/
theorem spaceAt_startNext (h : policy.InSpace) (hreset : policy.currentWorkerPerProcess = 0)
    (hidle : ∀ id, ¬ Busy out id) (hstart : startNext policy rest = some policy') :
    SpaceAt out rest policy' := by
  cases rest with
  | nil =>
      obtain rfl := Option.some.inj hstart
      exact ⟨h, fun _ hbusy => absurd hbusy (not_exists.mpr hidle), fun _ => hreset⟩
  | cons task rest => exact spaceAt_startStage h hreset hidle hstart

/-- A stage starts. -/
theorem spaceAt_nextStage (h : policy.InSpace) (hreset : policy.currentWorkerPerProcess = 0)
    (hidle : ∀ id, ¬ Busy out id) (hnext : NextStage policy task rest queue policy') :
    SpaceAt out queue policy' := by
  unfold NextStage at hnext
  split at hnext
  · obtain ⟨rfl, hstart⟩ := hnext
    exact spaceAt_startNext h hreset hidle hstart
  · obtain ⟨rfl, hstart⟩ := hnext
    exact spaceAt_startStage h hreset hidle hstart

/-- **The front has run** an epoch or a sub-epoch, and nothing runs any more. -/
theorem SpaceAt.nextEpoch (h : SpaceAt out (task :: rest) policy) (hbusy : Busy out id)
    {out' : List SchedEvent} (hidle : ∀ id, ¬ Busy out' id)
    (hnext : nextEpoch policy task rest time = some (queue, policy')) :
    SpaceAt out' queue policy' := by
  rcases nextEpoch_cases hnext with
    ⟨epochIters, batchsizes, current, htype, hfinish⟩ | ⟨hother, hnext⟩
  · have hat : AtStage (task :: rest) := ⟨task, rest, _, _, _, rfl, htype⟩
    have hplan : policy.InPlan := ⟨h.space, h.planned hat ⟨id, hbusy⟩⟩
    have hfinished := hplan.finishSubepoch time
    rcases hfinish with ⟨-, hnext⟩ | ⟨-, rfl, rfl⟩
    · have hreset := AutoParallelismPolicy.inSpace_resetStage hfinished.history
      exact spaceAt_nextStage hreset rfl hidle hnext
    · exact ⟨hfinished.toInSpace, fun _ hbusy => absurd hbusy (not_exists.mpr hidle),
        fun hnot => absurd hat hnot⟩
  · have hnot : ¬ AtStage (task :: rest) := by
      rintro ⟨_, _, _, _, _, heq, htype⟩
      obtain ⟨rfl, rfl⟩ := List.cons.inj heq
      exact hother _ _ _ htype
    exact spaceAt_nextStage h.space (h.reset hnot) hidle hnext

/-- Tasks are submitted when all earlier ones are finished: `Engine::Submit` waits for that. -/
def Submitted (_ : List SchedEvent) (s : AutoParallelismTaskScheduler) (_ : List Task) : Prop :=
  s.isFinished = true

/-- The invariant of runs. -/
structure SpaceInv (info : WorkerInfo) (out : List SchedEvent) (s : AutoParallelismTaskScheduler) :
    Prop where
  front : OnlyFront info out s
  stage : SpaceAt out s.tasksQueue s.policy

theorem SpaceInv.init (h : SpaceInv info out s) {tasks : List Task}
    (haccepts : Submitted out s tasks) (hstep : initTasks s tasks = some s') :
    SpaceInv info (out ++ [.submitted tasks]) s' := by
  have hplacement := placement_init h.front.placement hstep
  have hempty : s.tasksQueue = [] := List.isEmpty_iff.mp haccepts
  have hbusy : ∀ id, Busy (out ++ [.submitted tasks]) id ↔ Busy out id :=
    fun id => busy_snoc_of_none rfl id
  have hidle : ∀ id, ¬ Busy (out ++ [.submitted tasks]) id := by
    intro id hrun
    obtain ⟨task, rest, hqueue, -⟩ := h.front.front id ((hbusy id).mp hrun)
    cases hempty.symm.trans hqueue
  have hreset := h.stage.reset fun ⟨_, _, _, _, _, heq, _⟩ => by cases hempty.symm.trans heq
  obtain ⟨task, hhead, hstep⟩ := Option.bind_eq_some_iff.mp hstep
  obtain ⟨policy, hstart, hstep⟩ := Option.bind_eq_some_iff.mp hstep
  obtain rfl := Option.some.inj hstep
  obtain ⟨rest, hqueue⟩ := List.head?_eq_some_iff.mp hhead
  refine ⟨⟨hplacement, fun id hid => ?_, fun id hrun => absurd hrun (hidle id)⟩, ?_⟩
  · exact (hbusy id).mpr (h.front.keys id hid)
  · simp only [hqueue]
    exact spaceAt_startStage h.stage.space hreset hidle hstart

theorem SpaceInv.extract (h : SpaceInv info out s)
    (hstep : extractInstances info d s = some (s', o)) : SpaceInv info (out ++ o) s' := by
  refine ⟨h.front.extract hstep, ?_⟩
  rcases extract_cases hstep with ⟨rfl, rfl, -⟩ | ⟨task, rest, hqueue, hempty,
    ⟨epochIters, batchsizes, current, htype, hissue⟩ | ⟨htype, placement, hplace, rfl⟩⟩
  · rw [List.append_nil]
    exact h.stage
  · obtain ⟨policy, workers, threads, placement, hplan, hne, rfl, rfl, -, -⟩ :=
      issue_cases h.front.placement hissue
    obtain ⟨p', hp', hin⟩ := h.stage.space.generatePlan
    obtain rfl := Option.some.inj (hplan.symm.trans hp')
    have hat : AtStage s.tasksQueue := ⟨task, rest, _, _, _, hqueue, htype⟩
    exact ⟨hin.toInSpace, fun _ _ => hin.planned, fun hnot => absurd hat hnot⟩
  · -- A task of another kind: the policy is not asked.
    have hnot : ¬ AtStage s.tasksQueue := by
      rintro ⟨_, _, _, _, _, heq, htype'⟩
      obtain ⟨rfl, rfl⟩ := List.cons.inj (hqueue.symm.trans heq)
      exact htype _ _ _ htype'
    exact ⟨h.stage.space, fun hat => absurd hat hnot, fun _ => h.stage.reset hnot⟩

theorem SpaceInv.finish (h : SpaceInv info out s) (hid : id ∈ holders out tid)
    (hstep : finishThread info s id tid time = some s') :
    SpaceInv info (out ++ [.finished id tid]) s' := by
  refine ⟨h.front.finish hid hstep, ?_⟩
  rcases finish_cases h.front.placement.sound hid hstep with ⟨hbusy, rfl⟩ |
    ⟨hidle, task, rest, queue, policy, hqueue, hnext, rfl⟩
  · exact ⟨h.stage.space, fun hat _ => h.stage.planned hat ⟨id, tid, hid⟩, h.stage.reset⟩
  · have hat := h.stage
    rw [hqueue] at hat
    exact hat.nextEpoch ⟨tid, hid⟩ (h.front.finish_idle hid hidle) hnext

theorem spaceInv_start (info : WorkerInfo) : SpaceInv info [] (.start info) := by
  have hstart := SequentialTaskScheduler.inv_start info
  refine ⟨⟨hstart.placement, hstart.keys, fun id hid => absurd hid (not_busy_nil id)⟩, ?_⟩
  refine ⟨AutoParallelismPolicy.inSpace_resetStage AutoParallelismPolicy.bestOrdered_nil,
    fun _ hbusy => ?_, fun _ => rfl⟩
  obtain ⟨id, hbusy⟩ := hbusy
  exact absurd hbusy (not_busy_nil id)

/-- **The search space stays ordered**, whatever the stages of the tasks and whatever the times. -/
theorem search_space_ordered (info : WorkerInfo) (out : List SchedEvent)
    (s : AutoParallelismTaskScheduler)
    (h : Reaches (scheduler info) Submitted (.start info) out s) : s.policy.SpaceOrdered := by
  have hinv : SpaceInv info out s := h.invariant (spaceInv_start info)
    (fun hI hacc hstep => hI.init hacc hstep) (fun hI hstep => hI.extract hstep)
    fun hI hid hstep => hI.finish hid hstep
  exact hinv.stage.space.spaceOrdered

/-- A task with two stages, of batch sizes four and eight. -/
def twoStages : Task := ⟨0, 2, 0, 0, .autoParallelism [30, 20] [4, 8] 0, false⟩

/-- One worker is faster than two in the first stage. -/
def oneIsBetter : List SchedInput :=
  [.initTasks [twoStages], .extractInstances .plain, .finishThread 0 1 1, .extractInstances .plain,
    .finishThread 0 0 2, .finishThread 0 1 2, .extractInstances .plain, .finishThread 0 1 1]

/-- What the first stage has found bounds the search of the second one. -/
theorem search_space_ordered_twoStages : ∃ s : AutoParallelismTaskScheduler,
    s.policy.batchsizeToBestParallelismHistory = [(4, 1)] ∧ s.policy.currentBatchsize = 8 ∧
      s.policy.SpaceOrdered := by
  have hrun : (run (schedStep (scheduler (.oneProcess 2))) (.start (.oneProcess 2))
      oneIsBetter).map (fun r => (r.1.policy.batchsizeToBestParallelismHistory,
        r.1.policy.currentBatchsize)) = some ([(4, 1)], 8) := rfl
  obtain ⟨⟨s, out⟩, hrun, heq⟩ := Option.map_eq_some_iff.mp hrun
  obtain ⟨hhistory, hbatch⟩ := Prod.mk.inj heq
  refine ⟨s, hhistory, hbatch, search_space_ordered (.oneProcess 2) out s ⟨_, ?_, hrun⟩⟩
  apply along_cons rfl ⟨trivial, fun _ _ => rfl⟩
  apply along_cons rfl ⟨trivial, nofun⟩
  apply along_cons rfl ⟨by decide, nofun⟩
  apply along_cons rfl ⟨trivial, nofun⟩
  apply along_cons rfl ⟨by decide, nofun⟩
  apply along_cons rfl ⟨by decide, nofun⟩
  apply along_cons rfl ⟨trivial, nofun⟩
  apply along_cons rfl ⟨by decide, nofun⟩
  trivial

end AutoParallelismTaskScheduler

end FlexPS.Scheduler
