import Mathlib.Algebra.Order.BigOperators.Group.List
import FlexPS.Scheduler.AutoParallelismTaskScheduler

/-!
# The iterations of a stage

A stage of an `AutoParallelismTask` has a number of iterations, and the policy cuts it into
sub-epochs.  While the policy searches it tries ten iterations at a time; once it has fixed the
parallelism the rest of the stage is one sub-epoch.  A stage is over when the iterations are exactly
as many as were asked for, so a trial of ten with fewer than ten left is one too many.

## Main definitions

* `stageIters` — the iterations of the sub-epochs of a stage.
* `AutoParallelismPolicy.Searching` — the next sub-epoch is a trial.
* `AutoParallelismTaskScheduler.Roomy` — a trial is started with ten iterations left.
* `AutoParallelismTaskScheduler.StagesExact` — every stage runs as many iterations as it has.
-/

namespace FlexPS.Scheduler

open Lib

/-! ## The policy -/

namespace AutoParallelismPolicy

variable {p p' : AutoParallelismPolicy} {n : ℤ}

/-- The last sub-epoch has taken longer than the one before it. -/
def Worse (p : AutoParallelismPolicy) : Prop :=
  1 < p.subEpoch ∧ ∃ before last, p.times[p.subEpoch - 2]? = some before ∧
    p.times[p.subEpoch - 1]? = some last ∧ before < last

/-- The best parallelism is known without a trial: from the batch size, or because the search space
is a single number. -/
def Known (p : AutoParallelismPolicy) : Prop :=
  (∃ best, p.findBest p.currentBatchsize = some best) ∨
    (p.batchsizeToBestParallelismHistory ≠ [] ∧ ∃ best,
      prune p.currentBatchsize p.batchsizeToBestParallelismHistory
        (p.minWorkerPerProcess, p.maxWorkerPerProcess) = (best, best))

/-- The next sub-epoch is a trial. -/
def Searching (p : AutoParallelismPolicy) : Prop :=
  p.fixed = false ∧ ¬ p.Worse ∧ (p.currentWorkerPerProcess = 0 → ¬ p.Known)

/-- A stage of `n` iterations is not over: the next sub-epoch is a trial, or the rest. -/
structure Within (p : AutoParallelismPolicy) (n : ℤ) : Prop where
  total : p.numTotalIters = n
  left : p.currentIters < n
  tryIters : p.tryIters = if p.fixed then n - p.currentIters else 10

/-- No stage is started. -/
structure Idle (p : AutoParallelismPolicy) : Prop where
  currentIters : p.currentIters = 0
  fixed : p.fixed = false
  tryIters : p.tryIters = 10

theorem idle_resetStage (p : AutoParallelismPolicy) : p.resetStage.Idle := ⟨rfl, rfl, rfl⟩

/-- What is kept for the batch sizes when the parallelism is fixed. -/
def keptHistory (p : AutoParallelismPolicy) (best : ℤ) : List (ℤ × ℤ) :=
  if 0 < p.currentBatchsize then
    (p.insertBest p.currentBatchsize best).batchsizeToBestParallelismHistory
  else p.batchsizeToBestParallelismHistory

/-- Fixing the parallelism keeps everything else. -/
theorem fixParallelism_eq (p : AutoParallelismPolicy) (best : ℤ) :
    p.fixParallelism best =
      if p.times.length = p.workerPerProcessHistory.length then
        some { p with
          batchsizeToBestParallelismHistory := p.keptHistory best
          currentWorkerPerProcess := best
          tryIters := p.numTotalIters - p.currentIters
          fixed := true }
      else none := by
  have hinsert : p.insertBest p.currentBatchsize best =
      { p with batchsizeToBestParallelismHistory :=
          (p.insertBest p.currentBatchsize best).batchsizeToBestParallelismHistory } := by
    unfold insertBest
    split
    · rfl
    · rfl
  unfold fixParallelism keptHistory
  split
  · rw [hinsert]
  · rfl

/-- Fixing the parallelism leaves the rest of the stage for one sub-epoch. -/
theorem fixParallelism_spec {best : ℤ} (h : p.fixParallelism best = some p') :
    p'.currentIters = p.currentIters ∧ p'.numTotalIters = p.numTotalIters ∧ p'.fixed = true ∧
      p'.tryIters = p.numTotalIters - p.currentIters := by
  rw [fixParallelism_eq] at h
  split at h
  · obtain rfl := Option.some.inj h
    exact ⟨rfl, rfl, rfl, rfl⟩
  · cases h

/-- What planning does: the parallelism is fixed, or the next sub-epoch is a trial. -/
structure Planned (p : AutoParallelismPolicy) (searching : Prop) (p' : AutoParallelismPolicy) :
    Prop where
  currentIters : p'.currentIters = p.currentIters
  total : p'.numTotalIters = p.numTotalIters
  fix : ¬ searching → p'.fixed = true ∧ p'.tryIters = p.numTotalIters - p.currentIters
  search : searching → p'.fixed = p.fixed ∧ p'.tryIters = p.tryIters

theorem planned_of_fix {searching : Prop} {best : ℤ} (hsearching : ¬ searching)
    (h : p.fixParallelism best = some p') : p.Planned searching p' := by
  obtain ⟨hcurrent, htotal, hfixed, htry⟩ := fixParallelism_spec h
  exact ⟨hcurrent, htotal, fun _ => ⟨hfixed, htry⟩, fun h => absurd h hsearching⟩

/-- One more worker per process, as far as there may be more. -/
def oneMore (p : AutoParallelismPolicy) : AutoParallelismPolicy :=
  { p with currentWorkerPerProcess :=
      if p.maxWorkerPerProcess < p.currentWorkerPerProcess + 1 then p.maxWorkerPerProcess
      else p.currentWorkerPerProcess + 1 }

/-- The last sub-epoch was worse: the number of workers before it is the best. -/
theorem increase_of_worse (hlength : p.subEpoch = p.times.length) (hworse : p.Worse) :
    p.increase = (p.workerPerProcessHistory[p.subEpoch - 2]?).bind p.fixParallelism := by
  obtain ⟨hlt, before, last, hbefore, hlast, hslower⟩ := hworse
  simp only [increase, if_pos hlength, if_pos hlt, hbefore, hlast, Option.bind_eq_bind,
    Option.bind_some, decide_eq_true hslower, if_true]

/-- The last sub-epoch was not worse. -/
theorem increase_of_not_worse (hlength : p.subEpoch = p.times.length) (hnot : ¬ p.Worse) :
    p.increase = some p.oneMore := by
  by_cases hlt : 1 < p.subEpoch
  · have hlast : p.subEpoch - 1 < p.times.length := by omega
    have hbefore : p.subEpoch - 2 < p.times.length := by omega
    have hnot : ¬ p.times[p.subEpoch - 2] < p.times[p.subEpoch - 1] := fun hslower =>
      hnot ⟨hlt, _, _, List.getElem?_eq_getElem hbefore, List.getElem?_eq_getElem hlast, hslower⟩
    simp only [increase, if_pos hlength, if_pos hlt, List.getElem?_eq_getElem hlast,
      List.getElem?_eq_getElem hbefore, Option.bind_eq_bind, Option.bind_some,
      decide_eq_false hnot, if_neg Bool.false_ne_true]
    rfl
  · simp only [increase, if_pos hlength, if_neg hlt, Option.bind_eq_bind, Option.bind_some,
      if_neg Bool.false_ne_true]
    rfl

theorem increase_cases (h : p.increase = some p') :
    (p.Worse ∧ ∃ best, p.workerPerProcessHistory[p.subEpoch - 2]? = some best ∧
      p.fixParallelism best = some p') ∨ (¬ p.Worse ∧ p' = p.oneMore) := by
  have hlength : p.subEpoch = p.times.length := by
    by_contra hne
    rw [increase, if_neg hne] at h
    cases h
  by_cases hworse : p.Worse
  · rw [increase_of_worse hlength hworse] at h
    obtain ⟨best, hbest, hfix⟩ := Option.bind_eq_some_iff.mp h
    exact .inl ⟨hworse, best, hbest, hfix⟩
  · rw [increase_of_not_worse hlength hworse] at h
    exact .inr ⟨hworse, (Option.some.inj h).symm⟩

theorem increase_spec (h : p.increase = some p') : p.Planned (¬ p.Worse) p' := by
  rcases increase_cases h with ⟨hworse, best, -, hfix⟩ | ⟨hnot, rfl⟩
  · exact planned_of_fix (not_not.mpr hworse) hfix
  · exact ⟨rfl, rfl, fun hsearching => absurd hnot hsearching, fun _ => ⟨rfl, rfl⟩⟩

/-- The search space after the best parallelism of the neighbouring batch sizes. -/
def pruned (p : AutoParallelismPolicy) : AutoParallelismPolicy :=
  let space := prune p.currentBatchsize p.batchsizeToBestParallelismHistory
    (p.minWorkerPerProcess, p.maxWorkerPerProcess)
  { p with minWorkerPerProcess := space.1, maxWorkerPerProcess := space.2 }

/-- The first sub-epoch of a stage takes what is known of its batch size, or begins to search in
what the other batch sizes leave. -/
theorem subGeneratePlan_cases (h : p.subGeneratePlan = some p') :
    (p.currentWorkerPerProcess ≠ 0 ∧ p.increase = some p') ∨
    (p.currentWorkerPerProcess = 0 ∧
      ((∃ best, p.findBest p.currentBatchsize = some best ∧ p.fixParallelism best = some p') ∨
      (p.findBest p.currentBatchsize = none ∧ p.batchsizeToBestParallelismHistory = [] ∧
        p.increase = some p') ∨
      (p.findBest p.currentBatchsize = none ∧ p.batchsizeToBestParallelismHistory ≠ [] ∧
        ((p.pruned.minWorkerPerProcess = p.pruned.maxWorkerPerProcess ∧
          p.pruned.fixParallelism p.pruned.minWorkerPerProcess = some p') ∨
        (p.pruned.minWorkerPerProcess < p.pruned.maxWorkerPerProcess ∧
          increase { p.pruned with
            currentWorkerPerProcess := p.pruned.minWorkerPerProcess - 1 } = some p'))))) := by
  unfold subGeneratePlan at h
  split at h
  · next hfirst =>
      refine .inr ⟨hfirst, ?_⟩
      split at h
      · next best hbest => exact .inl ⟨best, hbest, h⟩
      · next hnone =>
          split at h
          · next hnil => exact .inr (.inl ⟨hnone, hnil, h⟩)
          · next hhistory =>
              refine .inr (.inr ⟨hnone, hhistory, ?_⟩)
              simp only at h
              split at h
              · next hle =>
                  split at h
                  · next heq => exact .inl ⟨heq, h⟩
                  · next hne => exact .inr ⟨lt_of_le_of_ne hle hne, h⟩
              · cases h
  · next hlater => exact .inl ⟨hlater, h⟩

theorem subGeneratePlan_spec (h : p.subGeneratePlan = some p') :
    p.Planned (¬ p.Worse ∧ (p.currentWorkerPerProcess = 0 → ¬ p.Known)) p' := by
  have hunknown : p.findBest p.currentBatchsize = none →
      ¬ ∃ best, p.findBest p.currentBatchsize = some best := by
    rintro hnone ⟨best, hbest⟩
    rw [hnone] at hbest
    cases hbest
  have hiff : ¬ p.Known → ((¬ p.Worse ∧ (p.currentWorkerPerProcess = 0 → ¬ p.Known)) ↔
      ¬ p.Worse) := fun hknown => and_iff_left fun _ => hknown
  rcases subGeneratePlan_cases h with ⟨hlater, h⟩ |
    ⟨hfirst, ⟨best, hbest, h⟩ | ⟨hnone, hnil, h⟩ | ⟨hnone, hhistory, ⟨heq, h⟩ | ⟨hlt, h⟩⟩⟩
  · rw [and_iff_left fun hfirst => absurd hfirst hlater]
    exact increase_spec h
  · exact planned_of_fix (fun hsearching => hsearching.2 hfirst (.inl ⟨best, hbest⟩)) h
  · rw [hiff fun hknown => hknown.elim (hunknown hnone) fun hspace => hspace.1 hnil]
    exact increase_spec h
  · obtain ⟨hcurrent, htotal, hfixed, htry⟩ := fixParallelism_spec h
    refine ⟨hcurrent, htotal, fun _ => ⟨hfixed, htry⟩, fun hsearching => ?_⟩
    exact absurd (.inr ⟨hhistory, _, Prod.ext rfl heq.symm⟩) (hsearching.2 hfirst)
  · rw [hiff fun hknown => hknown.elim (hunknown hnone) ?_]
    · obtain ⟨hcurrent, htotal, hfix, hsearch⟩ := increase_spec h
      exact ⟨hcurrent, htotal, hfix, hsearch⟩
    · rintro ⟨-, best, hspace⟩
      simp only [pruned, hspace, lt_irrefl] at hlt

/-- **Planning a sub-epoch**: a trial of ten iterations, or the rest of the stage. -/
theorem Within.generatePlan (h : p.Within n) (hplan : p.generatePlan = some p') :
    p'.Within n ∧ p'.currentIters = p.currentIters ∧
      (p.Searching → p'.tryIters = 10) ∧ (¬ p.Searching → p'.tryIters = n - p.currentIters) := by
  unfold AutoParallelismPolicy.generatePlan at hplan
  split at hplan
  · next hfixed =>
      obtain rfl := Option.some.inj hplan
      have htry := h.tryIters
      rw [hfixed, if_pos rfl] at htry
      refine ⟨h, rfl, fun hsearching => ?_, fun _ => htry⟩
      exact absurd (hfixed.symm.trans hsearching.1) nofun
  · next hfixed =>
      rw [Bool.not_eq_true] at hfixed
      have hspec := subGeneratePlan_spec hplan
      have hsearching : p.Searching ↔
          (¬ p.Worse ∧ (p.currentWorkerPerProcess = 0 → ¬ p.Known)) := and_iff_right hfixed
      rw [← hsearching] at hspec
      have htotal := hspec.total.trans h.total
      have hleft : p'.currentIters < n := by
        rw [hspec.currentIters]
        exact h.left
      by_cases hsearch : p.Searching
      · obtain ⟨hfixed', htry⟩ := hspec.search hsearch
        have hten := h.tryIters
        rw [hfixed, if_neg Bool.false_ne_true] at hten
        refine ⟨⟨htotal, hleft, ?_⟩, hspec.currentIters, fun _ => htry.trans hten,
          fun hno => absurd hsearch hno⟩
        rw [hfixed', hfixed, if_neg Bool.false_ne_true, htry, hten]
      · obtain ⟨hfixed', htry⟩ := hspec.fix hsearch
        rw [h.total] at htry
        refine ⟨⟨htotal, hleft, ?_⟩, hspec.currentIters, fun hyes => absurd hyes hsearch,
          fun _ => htry⟩
        rw [hfixed', if_pos rfl, htry, hspec.currentIters]

/-- A new stage. -/
theorem Idle.startStage (h : p.Idle) (hn : 0 < n) {batchsize : ℤ}
    (hstart : p.startStage n batchsize = some p') : p'.Within n ∧ p'.currentIters = 0 := by
  have hnew : ∀ {q : AutoParallelismPolicy}, q = { p with
      numTotalIters := n
      currentBatchsize := batchsize } → q.Within n ∧ q.currentIters = 0 := by
    rintro q rfl
    refine ⟨⟨rfl, ?_, ?_⟩, h.currentIters⟩
    · simp only [h.currentIters, hn]
    · simp only [h.tryIters, h.fixed, if_neg Bool.false_ne_true]
  unfold AutoParallelismPolicy.startStage at hstart
  simp only at hstart
  split at hstart
  · split at hstart
    · obtain ⟨hcurrent, htotal, hfixed, htry⟩ := fixParallelism_spec hstart
      have hzero := hcurrent.trans h.currentIters
      refine ⟨⟨htotal, by rwa [hzero], ?_⟩, hzero⟩
      rw [hfixed, if_pos rfl, htry, hcurrent]
    · exact hnew (Option.some.inj hstart).symm
  · exact hnew (Option.some.inj hstart).symm

/-- **A sub-epoch that fits**: the stage is over when nothing is left, and goes on otherwise. -/
theorem Within.finishSubepoch (h : p.Within n) (hfits : p.currentIters + p.tryIters ≤ n)
    (time : ℕ) :
    (p.finishSubepoch time).1.currentIters = p.currentIters + p.tryIters ∧
      ((p.finishSubepoch time).2 = true ↔ p.currentIters + p.tryIters = n) ∧
      ((p.finishSubepoch time).2 = false → (p.finishSubepoch time).1.Within n) := by
  have hiff : (p.finishSubepoch time).2 = true ↔ p.currentIters + p.tryIters = n := by
    simp only [AutoParallelismPolicy.finishSubepoch, decide_eq_true_iff, h.total]
  refine ⟨rfl, hiff, fun hgoes => ?_⟩
  have hne : p.currentIters + p.tryIters ≠ n := fun heq => by
    rw [hiff.mpr heq] at hgoes
    cases hgoes
  have htry := h.tryIters
  cases hfixed : p.fixed with
  | true =>
      rw [hfixed, if_pos rfl] at htry
      omega
  | false =>
      rw [hfixed, if_neg Bool.false_ne_true] at htry
      refine ⟨h.total, lt_of_le_of_ne hfits hne, ?_⟩
      simp only [AutoParallelismPolicy.finishSubepoch, hfixed, htry, if_neg Bool.false_ne_true]

end AutoParallelismPolicy

/-! ## The sub-epochs of a stage -/

/-- The iterations of the sub-epochs that have been issued for a stage, one after another. -/
def stageIters (out : List SchedEvent) (id epoch : ℕ) : List ℤ :=
  out.filterMap fun
    | .issued instance_ => match instance_.task.type with
        | .autoParallelism _ _ currentStageIters =>
            if instance_.id = id ∧ instance_.epoch = epoch then some currentStageIters else none
        | _ => none
    | _ => none

theorem stageIters_append (out o : List SchedEvent) (id epoch : ℕ) :
    stageIters (out ++ o) id epoch = stageIters out id epoch ++ stageIters o id epoch :=
  List.filterMap_append

theorem stageIters_snoc_of_none (out : List SchedEvent) {e : SchedEvent} (he : e.entry = none)
    (id epoch : ℕ) : stageIters (out ++ [e]) id epoch = stageIters out id epoch := by
  have hnil : stageIters [e] id epoch = [] := by
    cases e with
    | issued => cases he
    | _ => rfl
  rw [stageIters_append, hnil, List.append_nil]

@[simp] theorem stageIters_finished (out : List SchedEvent) (id' tid id epoch : ℕ) :
    stageIters (out ++ [.finished id' tid]) id epoch = stageIters out id epoch := by
  rw [stageIters_append]
  exact List.append_nil _

/-- A sub-epoch is issued. -/
theorem stageIters_issued (out : List SchedEvent) {task : Task} {epochIters batchsizes : List ℤ}
    {current : ℤ} (htype : task.type = .autoParallelism epochIters batchsizes current)
    (threads : List (ℕ × ℕ)) (id epoch : ℕ) :
    stageIters (out ++ [.issued ⟨task, threads⟩]) id epoch =
      if task.id = id ∧ task.currentEpoch = epoch then stageIters out id epoch ++ [current]
      else stageIters out id epoch := by
  rw [stageIters_append]
  by_cases heq : task.id = id ∧ task.currentEpoch = epoch
  · simp [stageIters, htype, Instance.id, Instance.epoch, heq]
  · simp [stageIters, htype, Instance.id, Instance.epoch, heq]

/-- An instance of another kind of task is issued. -/
theorem stageIters_issued_other (out : List SchedEvent) {instance_ : Instance}
    (htype : ∀ epochIters batchsizes current,
      instance_.task.type ≠ .autoParallelism epochIters batchsizes current) (id epoch : ℕ) :
    stageIters (out ++ [.issued instance_]) id epoch = stageIters out id epoch := by
  have hnil : stageIters [.issued instance_] id epoch = [] := by
    cases hcase : instance_.task.type with
    | autoParallelism epochIters batchsizes current => exact absurd hcase (htype _ _ _)
    | _ => simp [stageIters, hcase]
  rw [stageIters_append, hnil, List.append_nil]

namespace AutoParallelismTaskScheduler

variable {info : WorkerInfo} {tasks₀ queue rest : List Task} {out o : List SchedEvent}
  {s s' : AutoParallelismTaskScheduler} {policy policy' : AutoParallelismPolicy} {task task₀ : Task}
  {d : Draw} {n id tid time epoch : ℕ}

/-- Whether a trial that is started now has ten iterations left. -/
def Roomy (s : AutoParallelismTaskScheduler) : Prop :=
  ∀ task rest epochIters batchsizes current, s.tasksQueue = task :: rest →
    task.type = .autoParallelism epochIters batchsizes current →
    s.placement.taskIdPidTids.isEmpty = true → s.policy.Searching →
      s.policy.currentIters + 10 ≤ s.policy.numTotalIters

/-- A stage is declared finished: its task is at a later epoch, or not in the queue any more. -/
def StageOver (s : AutoParallelismTaskScheduler) (id epoch : ℕ) : Prop :=
  ∀ task ∈ s.tasksQueue, task.id = id → epoch < task.currentEpoch

/-- **Every stage runs exactly the iterations it has**: its sub-epochs have positive numbers of
iterations, so that there are finitely many, which add up to at most the entry of the stage, and to
the entry once the stage is declared finished. -/
structure StagesExact (tasks₀ : List Task) (out : List SchedEvent)
    (s : AutoParallelismTaskScheduler) : Prop where
  positive : ∀ id epoch, ∀ iters ∈ stageIters out id epoch, 0 < iters
  stage : ∀ task₀ ∈ tasks₀, ∀ epochIters batchsizes current,
    task₀.type = .autoParallelism epochIters batchsizes current → ∀ (epoch : ℕ) (entry : ℤ),
    epoch < task₀.totalEpoch → epochIters[epoch]? = some entry →
      ((stageIters out task₀.id epoch).length : ℤ) ≤ entry ∧
      (stageIters out task₀.id epoch).sum ≤ entry ∧
      (s.StageOver task₀.id epoch → (stageIters out task₀.id epoch).sum = entry)

/-- The entries of the stages are positive. -/
def PositiveEntries (tasks₀ : List Task) : Prop :=
  ∀ task₀ ∈ tasks₀, ∀ epochIters batchsizes current,
    task₀.type = .autoParallelism epochIters batchsizes current → ∀ entry ∈ epochIters, 0 < entry

/-- The stage has run what it has. -/
def Exact (out : List SchedEvent) (task₀ : Task) (epoch : ℕ) : Prop :=
  ∀ epochIters batchsizes current, task₀.type = .autoParallelism epochIters batchsizes current →
    ∀ entry, epochIters[epoch]? = some entry → (stageIters out task₀.id epoch).sum = entry

/-- The current stage of the front: the policy has counted the sub-epochs that are over. -/
def FrontStage (out : List SchedEvent) (task : Task) (policy : AutoParallelismPolicy) : Prop :=
  match task.type with
  | .autoParallelism epochIters _ _ => ∃ entry, epochIters[task.currentEpoch]? = some entry ∧
      policy.Within entry ∧
      (¬ Busy out task.id →
        (stageIters out task.id task.currentEpoch).sum = policy.currentIters) ∧
      (Busy out task.id → policy.currentIters + policy.tryIters ≤ entry ∧
        (stageIters out task.id task.currentEpoch).sum = policy.currentIters + policy.tryIters)
  | _ => policy.Idle

/-- The stages before the current one of the `n`-th task have run what they have, and the stages
after it nothing. -/
structure StagesAt (tasks₀ : List Task) (out : List SchedEvent) (queue : List Task)
    (policy : AutoParallelismPolicy) (n : ℕ) : Prop where
  positive : ∀ id epoch, ∀ iters ∈ stageIters out id epoch, 0 < iters
  before : ∀ (i : ℕ) (task₀ : Task), tasks₀[i]? = some task₀ → i < n →
    ∀ epoch < task₀.totalEpoch, Exact out task₀ epoch
  after : ∀ (i : ℕ) (task₀ : Task), tasks₀[i]? = some task₀ → n < i →
    ∀ epoch, stageIters out task₀.id epoch = []
  front : ∀ task rest, queue = task :: rest → ∃ task₀, tasks₀.drop n = task₀ :: rest ∧
    task = { task₀ with currentEpoch := task.currentEpoch } ∧
    task.currentEpoch < task₀.totalEpoch ∧
    (∀ epoch < task.currentEpoch, Exact out task₀ epoch) ∧
    (∀ epoch, task.currentEpoch < epoch → stageIters out task₀.id epoch = []) ∧
    FrontStage out task policy
  done : queue = [] → tasks₀.length ≤ n

theorem frontStage_auto {epochIters batchsizes : List ℤ} {current : ℤ}
    (htype : task.type = .autoParallelism epochIters batchsizes current) :
    FrontStage out task policy ↔ ∃ entry, epochIters[task.currentEpoch]? = some entry ∧
      policy.Within entry ∧
      (¬ Busy out task.id →
        (stageIters out task.id task.currentEpoch).sum = policy.currentIters) ∧
      (Busy out task.id → policy.currentIters + policy.tryIters ≤ entry ∧
        (stageIters out task.id task.currentEpoch).sum =
          policy.currentIters + policy.tryIters) := by
  unfold FrontStage
  rw [htype]

theorem frontStage_other (htype : ∀ epochIters batchsizes current,
    task.type ≠ .autoParallelism epochIters batchsizes current) :
    FrontStage out task policy ↔ policy.Idle := by
  unfold FrontStage
  cases hcase : task.type with
  | autoParallelism epochIters batchsizes current => exact absurd hcase (htype _ _ _)
  | _ => rfl

/-- A stage that is started is the current stage of its task. -/
theorem frontStage_of_startStage (hidle : policy.Idle)
    (hpos : ∀ epochIters batchsizes current,
      task.type = .autoParallelism epochIters batchsizes current → ∀ entry ∈ epochIters, 0 < entry)
    (hnone : stageIters out task.id task.currentEpoch = []) (hnot : ¬ Busy out task.id)
    (hstart : startStage policy task task.currentEpoch = some policy') :
    FrontStage out task policy' := by
  unfold startStage at hstart
  split at hstart
  · next epochIters batchsizes current htype =>
      obtain ⟨entry, hentry, hstart⟩ := Option.bind_eq_some_iff.mp hstart
      have hentry_pos := hpos _ _ _ htype entry (List.mem_of_getElem? hentry)
      have hnew : policy'.Within entry ∧ policy'.currentIters = 0 := by
        split at hstart
        · exact hidle.startStage hentry_pos hstart
        · split at hstart
          · obtain ⟨batchsize, -, hstart⟩ := Option.bind_eq_some_iff.mp hstart
            exact hidle.startStage hentry_pos hstart
          · cases hstart
      refine (frontStage_auto htype).mpr ⟨entry, hentry, hnew.1, fun _ => ?_,
        fun hbusy => absurd hbusy hnot⟩
      rw [hnone, hnew.2, List.sum_nil]
  · next htype =>
      obtain rfl := Option.some.inj hstart
      exact (frontStage_other htype).mpr hidle

/-- Events that issue no sub-epoch. -/
theorem StagesAt.congr {out' : List SchedEvent} (h : StagesAt tasks₀ out queue policy n)
    (hiters : ∀ id epoch, stageIters out' id epoch = stageIters out id epoch)
    (hfront : ∀ task rest, queue = task :: rest → FrontStage out task policy →
      FrontStage out' task policy) : StagesAt tasks₀ out' queue policy n where
  positive := by simpa only [hiters] using h.positive
  before := by simpa only [Exact, hiters] using h.before
  after := by simpa only [hiters] using h.after
  front task rest hqueue := by
    obtain ⟨task₀, hdrop, htask, hlt, hexact, hnone, hstage⟩ := h.front task rest hqueue
    refine ⟨task₀, hdrop, htask, hlt, ?_, ?_, hfront task rest hqueue hstage⟩
    · simpa only [Exact, hiters] using hexact
    · simpa only [hiters] using hnone
  done := h.done

/-- The tasks at different positions have different ids. -/
theorem id_ne_of_getElem? (hnodup : (tasks₀.map Task.id).Nodup) {i j : ℕ} {a b : Task}
    (ha : tasks₀[i]? = some a) (hb : tasks₀[j]? = some b) (hij : i ≠ j) : a.id ≠ b.id := by
  intro heq
  have ha' : (tasks₀.map Task.id)[i]? = some a.id := by rw [List.getElem?_map, ha, Option.map_some]
  have hb' : (tasks₀.map Task.id)[j]? = some a.id := by
    rw [List.getElem?_map, hb, Option.map_some, heq]
  obtain ⟨hi, hai⟩ := List.getElem?_eq_some_iff.mp ha'
  obtain ⟨hj, hbj⟩ := List.getElem?_eq_some_iff.mp hb'
  exact hij ((List.Nodup.getElem_inj_iff hnodup).mp (hai.trans hbj.symm))

/-- **A sub-epoch is issued**: a trial that has room, or the rest of the stage. -/
theorem StagesAt.issue (h : StagesAt tasks₀ out (task :: rest) policy n)
    (hnodup : (tasks₀.map Task.id).Nodup) (hnot : ¬ Busy out task.id)
    {epochIters batchsizes : List ℤ} {current : ℤ} {workers : ℕ} {threads : List (ℕ × ℕ)}
    (htype : task.type = .autoParallelism epochIters batchsizes current)
    (hroomy : policy.Searching → policy.currentIters + 10 ≤ policy.numTotalIters)
    (hplan : policy.generatePlan = some policy') (hne : threads ≠ []) :
    StagesAt tasks₀ (out ++ [.issued ⟨{ task with
      numWorkers := workers
      type := .autoParallelism epochIters batchsizes policy'.tryIters }, threads⟩])
      (task :: rest) policy' n := by
  obtain ⟨task₀, hdrop, htask, hlt, hexact, hnone, hstage⟩ := h.front task rest rfl
  obtain ⟨entry, hentry, hwithin, hsum, -⟩ := (frontStage_auto htype).mp hstage
  obtain ⟨hwithin', hcurrent, hsearch, hfix⟩ := hwithin.generatePlan hplan
  have hid : task.id = task₀.id := by rw [htask]
  have htask₀ := SequentialTaskScheduler.getElem?_of_drop hdrop
  rw [hwithin.total] at hroomy
  have hleft := hwithin.left
  set subEpoch : Task := { task with
    numWorkers := workers
    type := .autoParallelism epochIters batchsizes policy'.tryIters }
  have hiters : ∀ id epoch, stageIters (out ++ [.issued ⟨subEpoch, threads⟩]) id epoch =
      if task.id = id ∧ task.currentEpoch = epoch then stageIters out id epoch ++ [policy'.tryIters]
      else stageIters out id epoch := fun id epoch => stageIters_issued out rfl threads id epoch
  -- A trial has ten iterations left, and a fixed parallelism takes what is left.
  have htry : 0 < policy'.tryIters ∧ policy.currentIters + policy'.tryIters ≤ entry := by
    by_cases hsearching : policy.Searching
    · have hten := hroomy hsearching
      rw [hsearch hsearching]
      omega
    · rw [hfix hsearching]
      omega
  have hother : ∀ {i : ℕ} {task₁ : Task}, tasks₀[i]? = some task₁ → i ≠ n → ∀ epoch,
      ¬ (task.id = task₁.id ∧ task.currentEpoch = epoch) := fun hi hin epoch heq =>
    id_ne_of_getElem? hnodup hi htask₀ hin (heq.1.symm.trans hid)
  refine ⟨fun id epoch iters hmem => ?_, fun i task₁ hi hlt₁ epoch hepoch => ?_,
    fun i task₁ hi hlt₁ epoch => ?_, fun task' rest' hqueue => ?_, nofun⟩
  · rw [hiters] at hmem
    split at hmem
    · rcases List.mem_append.mp hmem with hmem | hmem
      · exact h.positive id epoch iters hmem
      · obtain rfl := List.mem_singleton.mp hmem
        exact htry.1
    · exact h.positive id epoch iters hmem
  · have hbefore := h.before i task₁ hi hlt₁ epoch hepoch
    simpa only [Exact, hiters, if_neg (hother hi (Nat.ne_of_lt hlt₁) epoch)] using hbefore
  · rw [hiters, if_neg (hother hi (Nat.ne_of_gt hlt₁) epoch)]
    exact h.after i task₁ hi hlt₁ epoch
  · obtain ⟨rfl, rfl⟩ := List.cons.inj hqueue
    refine ⟨task₀, hdrop, htask, hlt, fun epoch hepoch => ?_, fun epoch hepoch => ?_, ?_⟩
    · have hbefore := hexact epoch hepoch
      simpa only [Exact, hiters, if_neg fun heq : task.id = task₀.id ∧ task.currentEpoch = epoch =>
        Nat.ne_of_gt hepoch heq.2] using hbefore
    · rw [hiters, if_neg fun heq => Nat.ne_of_lt hepoch heq.2]
      exact hnone epoch hepoch
    · have hbusy : Busy (out ++ [.issued ⟨subEpoch, threads⟩]) task.id :=
        (busy_issued hne task.id).mpr (.inl rfl)
      refine (frontStage_auto htype).mpr ⟨entry, hentry, hwithin', fun hno => absurd hbusy hno,
        fun _ => ?_⟩
      rw [hiters, if_pos ⟨rfl, rfl⟩, List.sum_append, hsum hnot, List.sum_singleton, hcurrent]
      exact ⟨htry.2, rfl⟩

/-- **The current epoch of the front is over**: its next stage is started, or the first stage of
the next task. -/
theorem StagesAt.advance (hnew : New tasks₀) (hpos : PositiveEntries tasks₀)
    (h : StagesAt tasks₀ out (task :: rest) policy n) {out' : List SchedEvent}
    (hiters : ∀ id epoch, stageIters out' id epoch = stageIters out id epoch)
    (hnot : ∀ id, ¬ Busy out' id) (hover : ∀ task₀ ∈ tasks₀, task₀.id = task.id →
      task₀.type = task.type → Exact out task₀ task.currentEpoch) (hidle : policy'.Idle)
    {policy'' : AutoParallelismPolicy}
    (hnext : NextStage policy' task rest queue policy'') :
    ∃ n', StagesAt tasks₀ out' queue policy'' n' := by
  obtain ⟨task₀, hdrop, htask, hlt, hexact, hnone, -⟩ := h.front task rest rfl
  have htask₀ := SequentialTaskScheduler.getElem?_of_drop hdrop
  have hmem₀ := List.mem_of_getElem? htask₀
  have hid : task.id = task₀.id := by rw [htask]
  have htype : task.type = task₀.type := by rw [htask]
  have htotal : task.totalEpoch = task₀.totalEpoch := by rw [htask]
  have hthrough : ∀ epoch, epoch < task.currentEpoch + 1 → Exact out' task₀ epoch := by
    intro epoch hepoch
    simp only [Exact, hiters]
    rcases Nat.lt_succ_iff_lt_or_eq.mp hepoch with hepoch | rfl
    · exact hexact epoch hepoch
    · exact hover task₀ hmem₀ hid.symm htype.symm
  have hpositive : ∀ id epoch, ∀ iters ∈ stageIters out' id epoch, 0 < iters := by
    simpa only [hiters] using h.positive
  have hbefore : ∀ (i : ℕ) (task₁ : Task), tasks₀[i]? = some task₁ → i < n →
      ∀ epoch < task₁.totalEpoch, Exact out' task₁ epoch := by
    simpa only [Exact, hiters] using h.before
  have hafter : ∀ (i : ℕ) (task₁ : Task), tasks₀[i]? = some task₁ → n < i →
      ∀ epoch, stageIters out' task₁.id epoch = [] := by
    simpa only [hiters] using h.after
  unfold NextStage at hnext
  split at hnext
  · next hdone =>
      obtain ⟨rfl, hstart⟩ := hnext
      have hlast : task.currentEpoch + 1 = task₀.totalEpoch := by rw [← htotal]; exact hdone
      have hrest : tasks₀.drop (n + 1) = queue := by
        rw [← List.tail_drop, hdrop, List.tail_cons]
      refine ⟨n + 1, hpositive, fun i task₁ hi hi' epoch hepoch => ?_,
        fun i task₁ hi hi' => hafter i task₁ hi (by omega), fun task' rest' hqueue => ?_,
        fun hnil => ?_⟩
      · rcases Nat.lt_succ_iff_lt_or_eq.mp hi' with hi' | rfl
        · exact hbefore i task₁ hi hi' epoch hepoch
        · obtain rfl := Option.some.inj (htask₀.symm.trans hi)
          exact hthrough epoch (by omega)
      · rw [hqueue] at hrest hstart
        have htask' := SequentialTaskScheduler.getElem?_of_drop hrest
        have hmem := List.mem_of_getElem? htask'
        obtain ⟨hzero, hone⟩ := hnew task' hmem
        have hfresh := hafter (n + 1) task' htask' (Nat.lt_succ_self n)
        refine ⟨task', hrest, rfl, by omega, fun epoch hepoch => by omega,
          fun epoch _ => hfresh epoch, ?_⟩
        have hstart' : startStage policy' task' task'.currentEpoch = some policy'' := by
          rw [hzero]
          exact hstart
        exact frontStage_of_startStage hidle (hpos task' hmem) (hfresh _) (hnot _) hstart'
      · rw [hnil] at hrest
        exact List.drop_eq_nil_iff.mp hrest
  · next hmore =>
      obtain ⟨rfl, hstart⟩ := hnext
      refine ⟨n, hpositive, hbefore, hafter, fun task' rest' hqueue => ?_, nofun⟩
      obtain ⟨rfl, rfl⟩ := List.cons.inj hqueue
      have hmore : task.currentEpoch + 1 ≠ task₀.totalEpoch := by rw [← htotal]; exact hmore
      have hnone' : ∀ epoch, task.currentEpoch < epoch → stageIters out' task₀.id epoch = [] := by
        simpa only [hiters] using hnone
      refine ⟨task₀, hdrop, ?_, ?_, hthrough, fun epoch hepoch => ?_, ?_⟩
      · conv_lhs => rw [Task.incEpoch, htask]
        rfl
      · rw [Task.incEpoch_currentEpoch]
        omega
      · rw [Task.incEpoch_currentEpoch] at hepoch
        exact hnone' epoch (by omega)
      · refine frontStage_of_startStage hidle ?_ ?_ (hnot _) hstart
        · have hentries := hpos task₀ hmem₀
          rwa [← htype] at hentries
        · rw [Task.incEpoch_id, hid, Task.incEpoch_currentEpoch]
          exact hnone' _ (Nat.lt_succ_self _)

theorem StagesAt.extract (h : StagesAt tasks₀ out s.tasksQueue s.policy n)
    (hfront : OnlyFront info out s) (hnodup : (tasks₀.map Task.id).Nodup) (hroomy : s.Roomy)
    (hstep : extractInstances info d s = some (s', o)) :
    StagesAt tasks₀ (out ++ o) s'.tasksQueue s'.policy n := by
  rcases extract_cases hstep with ⟨rfl, rfl, -⟩ | ⟨task, rest, hqueue, hempty,
    ⟨epochIters, batchsizes, current, htype, hissue⟩ | ⟨htype, placement, hplace, rfl⟩⟩
  · rwa [List.append_nil]
  · obtain ⟨policy, workers, threads, placement, hplan, hne, rfl, rfl, -, -⟩ :=
      issue_cases hfront.placement hissue
    have hroom := hroomy task rest epochIters batchsizes current hqueue htype hempty
    simp only [hqueue] at h ⊢
    exact h.issue hnodup (hfront.idle_iff.mp hempty _) htype hroom hplan hne
  · -- A task of another kind: the policy is not asked, and no sub-epoch is issued.
    refine h.congr (fun id epoch => ?_) fun task' rest' hqueue' hstage => ?_
    · rcases hfront.placement.sound.taskToInstance hplace with
        ⟨instance_, rfl, hplaced⟩ | ⟨rfl, -⟩
      · refine stageIters_issued_other out ?_ id epoch
        rw [hplaced.task_eq, instanceBasicSetup_type]
        exact htype
      · exact stageIters_snoc_of_none out rfl id epoch
    · have hqueue' : s.tasksQueue = task' :: rest' := hqueue'
      obtain ⟨rfl, rfl⟩ := List.cons.inj (hqueue.symm.trans hqueue')
      exact (frontStage_other htype).mpr ((frontStage_other htype).mp hstage)

theorem StagesAt.finish (h : StagesAt tasks₀ out s.tasksQueue s.policy n)
    (hfront : OnlyFront info out s) (hnew : New tasks₀) (hpos : PositiveEntries tasks₀)
    (hid : id ∈ holders out tid) (hstep : finishThread info s id tid time = some s') :
    ∃ n', StagesAt tasks₀ (out ++ [.finished id tid]) s'.tasksQueue s'.policy n' := by
  have hiters := fun id' epoch => stageIters_finished out id tid id' epoch
  obtain ⟨task, rest, hqueue, hrun⟩ := hfront.front id ⟨tid, hid⟩
  have hqueue : s.tasksQueue = task :: rest := hqueue
  subst hrun
  rcases finish_cases hfront.placement.sound hid hstep with ⟨hbusy, rfl⟩ |
    ⟨hidle, task', rest', queue, policy, hqueue', hnext, rfl⟩
  · refine ⟨n, h.congr hiters fun task' rest' hqueue' hstage => ?_⟩
    obtain ⟨rfl, rfl⟩ := List.cons.inj (hqueue.symm.trans hqueue')
    by_cases htype : ∃ epochIters batchsizes current,
        task.type = .autoParallelism epochIters batchsizes current
    · obtain ⟨epochIters, batchsizes, current, htype⟩ := htype
      obtain ⟨entry, hentry, hwithin, -, hsum⟩ := (frontStage_auto htype).mp hstage
      refine (frontStage_auto htype).mpr ⟨entry, hentry, hwithin, fun hno => absurd hbusy hno,
        fun _ => ?_⟩
      rw [hiters]
      exact hsum ⟨tid, hid⟩
    · have htype : ∀ epochIters batchsizes current,
          task.type ≠ .autoParallelism epochIters batchsizes current :=
        fun epochIters batchsizes current heq => htype ⟨_, _, _, heq⟩
      exact (frontStage_other htype).mpr ((frontStage_other htype).mp hstage)
  · obtain ⟨rfl, rfl⟩ := List.cons.inj (hqueue.symm.trans hqueue')
    have hnot := hfront.finish_idle hid hidle
    rw [hqueue] at h
    obtain ⟨task₀, hdrop, htask, hlt, hexact, hnone, hstage⟩ := h.front task rest rfl
    rcases nextEpoch_cases hnext with
      ⟨epochIters, batchsizes, current, htype, ⟨hfinish, hnext⟩ | ⟨hmore, rfl, rfl⟩⟩ |
      ⟨hother, hnext⟩
    · obtain ⟨entry, hentry, hwithin, -, hsum⟩ := (frontStage_auto htype).mp hstage
      obtain ⟨hfits, hsum⟩ := hsum ⟨tid, hid⟩
      obtain ⟨-, hflag, -⟩ := hwithin.finishSubepoch hfits time
      refine h.advance hnew hpos hiters hnot (fun task₁ hmem hid₁ htype₁ => ?_)
        (AutoParallelismPolicy.idle_resetStage (s.policy.finishSubepoch time).1) hnext
      rintro epochIters' batchsizes' current' htype' entry' hentry'
      rw [htype₁, htype] at htype'
      obtain ⟨rfl, -, -⟩ := TaskType.autoParallelism.inj htype'
      obtain rfl := Option.some.inj (hentry.symm.trans hentry')
      rw [hid₁, hsum]
      exact hflag.mp hfinish
    · obtain ⟨entry, hentry, hwithin, -, hsum⟩ := (frontStage_auto htype).mp hstage
      obtain ⟨hfits, hsum⟩ := hsum ⟨tid, hid⟩
      obtain ⟨hcurrent, -, hgoes⟩ := hwithin.finishSubepoch hfits time
      have hwithin' := hgoes hmore
      refine ⟨n, ?_⟩
      obtain ⟨hpositive, hbefore, hafter, -, -⟩ := h
      refine ⟨?_, ?_, ?_, fun task' rest' hqueue' => ?_, nofun⟩
      · simpa only [hiters] using hpositive
      · simpa only [Exact, hiters] using hbefore
      · simpa only [hiters] using hafter
      · obtain ⟨rfl, rfl⟩ := List.cons.inj hqueue'
        refine ⟨task₀, hdrop, htask, hlt, ?_, ?_, ?_⟩
        · simpa only [Exact, hiters] using hexact
        · simpa only [hiters] using hnone
        · refine (frontStage_auto htype).mpr ⟨entry, hentry, hwithin', fun _ => ?_,
            fun hbusy => absurd hbusy (hnot _)⟩
          rw [hiters, hsum, hcurrent]
    · have hpolicy := (frontStage_other hother).mp hstage
      refine h.advance hnew hpos hiters hnot (fun task₁ _ _ htype₁ => ?_) hpolicy hnext
      rintro epochIters batchsizes current htype'
      exact absurd (htype₁.symm.trans htype') (hother _ _ _)

theorem StagesAt.exact (h : StagesAt tasks₀ out s.tasksQueue s.policy n) (hnew : New tasks₀)
    (hpos : PositiveEntries tasks₀) : StagesExact tasks₀ out s := by
  refine ⟨h.positive, fun task₀ hmem epochIters batchsizes current htype epoch entry hepoch
    hentry => ?_⟩
  have hpositive := h.positive task₀.id epoch
  have hentry_pos := hpos task₀ hmem _ _ _ htype entry (List.mem_of_getElem? hentry)
  have hlength : ((stageIters out task₀.id epoch).length : ℤ) ≤
      (stageIters out task₀.id epoch).sum := by
    have hone := List.card_nsmul_le_sum (stageIters out task₀.id epoch) 1 hpositive
    simpa using hone
  -- A stage that is over has run what it has; another one has run nothing, or it is the front's.
  suffices hsum : (stageIters out task₀.id epoch).sum = entry ∨
      ((stageIters out task₀.id epoch).sum ≤ entry ∧ ¬ s.StageOver task₀.id epoch) by
    rcases hsum with hsum | ⟨hle, hnot⟩
    · exact ⟨hlength.trans hsum.le, hsum.le, fun _ => hsum⟩
    · exact ⟨hlength.trans hle, hle, fun hover => absurd hover hnot⟩
  obtain ⟨i, hi⟩ := List.mem_iff_getElem?.mp hmem
  have hnone : stageIters out task₀.id epoch = [] →
      (stageIters out task₀.id epoch).sum ≤ entry := fun hnil => by
    rw [hnil, List.sum_nil]
    exact hentry_pos.le
  rcases Nat.lt_trichotomy i n with hlt | rfl | hlt
  · exact .inl (h.before i task₀ hi hlt epoch hepoch _ _ _ htype entry hentry)
  · cases hqueue : s.tasksQueue with
    | nil => exact absurd (List.getElem?_eq_some_iff.mp hi).1 (Nat.not_lt_of_le (h.done hqueue))
    | cons task rest =>
        obtain ⟨task₁, hdrop, htask, hlt, hexact, hlater, hstage⟩ := h.front task rest hqueue
        obtain rfl := Option.some.inj (hi.symm.trans
          (SequentialTaskScheduler.getElem?_of_drop hdrop))
        have hid : task.id = task₀.id := by rw [htask]
        have htype' : task.type = .autoParallelism epochIters batchsizes current := by
          rw [htask]
          exact htype
        have hfront : task ∈ s.tasksQueue := by
          rw [hqueue]
          exact List.mem_cons_self ..
        rcases Nat.lt_trichotomy epoch task.currentEpoch with hcase | rfl | hcase
        · exact .inl (hexact epoch hcase _ _ _ htype entry hentry)
        · refine .inr ⟨?_, fun hover => absurd (hover task hfront hid) (Nat.lt_irrefl _)⟩
          obtain ⟨entry', hentry', hwithin, hidle, hbusy⟩ := (frontStage_auto htype').mp hstage
          obtain rfl := Option.some.inj (hentry.symm.trans hentry')
          rw [← hid]
          by_cases hrun : Busy out task.id
          · obtain ⟨hfits, hsum⟩ := hbusy hrun
            exact hsum.le.trans hfits
          · exact (hidle hrun).le.trans hwithin.left.le
        · refine .inr ⟨hnone (hlater epoch hcase), fun hover => ?_⟩
          have := hover task hfront hid
          omega
  · refine .inr ⟨hnone (h.after i task₀ hi hlt epoch), fun hover => ?_⟩
    cases hqueue : s.tasksQueue with
    | nil =>
        have := h.done hqueue
        have := (List.getElem?_eq_some_iff.mp hi).1
        omega
    | cons task rest =>
        obtain ⟨task₁, hdrop, -⟩ := h.front task rest hqueue
        have hrest : tasks₀.drop (n + 1) = rest := by
          rw [← List.tail_drop, hdrop, List.tail_cons]
        have hin : task₀ ∈ s.tasksQueue := by
          rw [hqueue, ← hrest]
          refine List.mem_cons_of_mem _ (List.mem_iff_getElem?.mpr ⟨i - (n + 1), ?_⟩)
          rw [List.getElem?_drop, ← hi]
          congr 1
          omega
        have := hover task₀ hin rfl
        have := (hnew task₀ hmem).1
        omega

/-- A trial without room runs more iterations than the stage has. -/
theorem StagesAt.not_exact (h : StagesAt tasks₀ out s.tasksQueue s.policy n)
    (hfront : OnlyFront info out s) (hroomy : ¬ s.Roomy)
    (hstep : extractInstances info d s = some (s', o)) : ¬ StagesExact tasks₀ (out ++ o) s' := by
  intro hexact
  unfold Roomy at hroomy
  push Not at hroomy
  obtain ⟨task, rest, epochIters, batchsizes, current, hqueue, htype, hempty, hsearching, hfull⟩ :=
    hroomy
  obtain ⟨task₀, hdrop, htask, hlt, -, -, hstage⟩ := h.front task rest hqueue
  have hmem₀ := List.mem_of_getElem? (SequentialTaskScheduler.getElem?_of_drop hdrop)
  obtain ⟨entry, hentry, hwithin, hsum, -⟩ := (frontStage_auto htype).mp hstage
  have hidle := hfront.idle_iff.mp hempty task.id
  rcases extract_cases hstep with ⟨rfl, rfl, -⟩ | ⟨task', rest', hqueue', -,
    ⟨epochIters', batchsizes', current', htype', hissue⟩ | ⟨htype', -⟩⟩
  · unfold extractInstances at hstep
    simp only [hqueue, hempty, if_true, htype] at hstep
    obtain ⟨policy, workers, threads, placement, -, -, hnil, -⟩ := issue_cases hfront.placement hstep
    exact absurd hnil (by simp)
  · obtain ⟨rfl, rfl⟩ := List.cons.inj (hqueue.symm.trans hqueue')
    rw [htype] at htype'
    obtain ⟨rfl, rfl, rfl⟩ := TaskType.autoParallelism.inj htype'
    obtain ⟨policy, workers, threads, placement, hplan, hne, rfl, rfl, -, -⟩ :=
      issue_cases hfront.placement hissue
    obtain ⟨-, -, hten, -⟩ := hwithin.generatePlan hplan
    have htype₀ : task₀.type = .autoParallelism epochIters batchsizes current := by
      rw [← htype, htask]
    have hid : task.id = task₀.id := by rw [htask]
    obtain ⟨-, hle, -⟩ := hexact.stage task₀ hmem₀ _ _ _ htype₀ task.currentEpoch entry hlt hentry
    rw [stageIters_issued out rfl threads, if_pos ⟨hid, rfl⟩, List.sum_append, ← hid, hsum hidle,
      List.sum_singleton, hten hsearching] at hle
    rw [hwithin.total] at hfull
    omega
  · obtain ⟨rfl, rfl⟩ := List.cons.inj (hqueue.symm.trans hqueue')
    exact htype' _ _ _ htype

theorem stagesAt_init (hnew : New tasks₀) (hpos : PositiveEntries tasks₀)
    (hinit : initTasks (.start info) tasks₀ = some s) :
    StagesAt tasks₀ [] s.tasksQueue s.policy 0 ∧ OnlyFront info [] s := by
  obtain ⟨task, hhead, hinit⟩ := Option.bind_eq_some_iff.mp hinit
  obtain ⟨policy, hstart, hinit⟩ := Option.bind_eq_some_iff.mp hinit
  obtain rfl := Option.some.inj hinit
  have hidle : (start info).policy.Idle := AutoParallelismPolicy.idle_resetStage _
  refine ⟨⟨fun _ _ => nofun, fun _ _ _ => nofun, fun _ _ _ _ _ => rfl,
    fun task' rest hqueue => ?_, fun hnil => ?_⟩, ?_⟩
  · have hqueue : tasks₀ = task' :: rest := hqueue
    subst hqueue
    obtain rfl := Option.some.inj hhead
    obtain ⟨hzero, hone⟩ := hnew task' (List.mem_cons_self ..)
    refine ⟨task', rfl, rfl, by omega, fun epoch hepoch => by omega, fun _ _ => rfl, ?_⟩
    refine frontStage_of_startStage hidle (hpos task' (List.mem_cons_self ..)) rfl
      (not_busy_nil _) ?_
    rw [hzero]
    exact hstart
  · have hnil : tasks₀ = [] := hnil
    rw [hnil]
    exact le_rfl
  · have hinv := SequentialTaskScheduler.inv_start info
    exact ⟨hinv.placement, hinv.keys, fun id hid => absurd hid (not_busy_nil id)⟩

/-! ## Runs -/

/-- What extracting instances and finishing threads can lead to when every trial is started with ten
iterations left. -/
def ReachesRoomy (info : WorkerInfo) (s₀ : AutoParallelismTaskScheduler) (out : List SchedEvent)
    (s : AutoParallelismTaskScheduler) : Prop :=
  ∃ inputs, Along (schedStep (scheduler info)) (fun before s i =>
      (i.Fair before ∧ ∀ tasks, i ≠ .initTasks tasks) ∧
        ∀ d, i = .extractInstances d → s.Roomy) [] s₀ inputs ∧
    run (schedStep (scheduler info)) s₀ inputs = some (s, out)

theorem ReachesRoomy.stagesAt (hnew : New tasks₀) (hnodup : (tasks₀.map Task.id).Nodup)
    (hpos : PositiveEntries tasks₀) {s₀ : AutoParallelismTaskScheduler}
    (hinit : initTasks (.start info) tasks₀ = some s₀) (h : ReachesRoomy info s₀ out s) :
    (∃ n, StagesAt tasks₀ out s.tasksQueue s.policy n) ∧ OnlyFront info out s := by
  obtain ⟨inputs, halong, hrun⟩ := h
  obtain ⟨hstart, hfront₀⟩ := stagesAt_init hnew hpos hinit
  refine run_along (I := fun out s => (∃ n, StagesAt tasks₀ out s.tasksQueue s.policy n) ∧
    OnlyFront info out s) (fun {out s i s' o} hI hi hstep => ?_) ⟨⟨0, hstart⟩, hfront₀⟩ halong hrun
  obtain ⟨⟨n, hstages⟩, hfront⟩ := hI
  obtain ⟨⟨hfair, hnot⟩, hroomy⟩ := hi
  cases i with
  | initTasks tasks => exact absurd rfl (hnot tasks)
  | extractInstances d =>
      exact ⟨⟨n, hstages.extract hfront hnodup (hroomy d rfl) hstep⟩, hfront.extract hstep⟩
  | finishThread id tid time =>
      obtain ⟨s₁, hs₁, heq⟩ := Option.map_eq_some_iff.mp hstep
      obtain ⟨rfl, rfl⟩ := Prod.mk.inj heq
      exact ⟨hstages.finish hfront hnew hpos hfair hs₁, hfront.finish hfair hs₁⟩

/-- **The stages run exactly the iterations they have**, whatever the times, as long as every trial
is started with ten iterations left; and the first trial that is not runs too many. -/
theorem stages_run_exactly (info : WorkerInfo) (tasks : List Task) (hnew : New tasks)
    (hnodup : (tasks.map Task.id).Nodup) (hpos : PositiveEntries tasks)
    (s₀ : AutoParallelismTaskScheduler) (hinit : initTasks (.start info) tasks = some s₀)
    (out : List SchedEvent) (s : AutoParallelismTaskScheduler) (h : ReachesRoomy info s₀ out s) :
    StagesExact tasks out s ∧ ∀ d s' o, extractInstances info d s = some (s', o) → ¬ s.Roomy →
      ¬ StagesExact tasks (out ++ o) s' := by
  obtain ⟨⟨n, hstages⟩, hfront⟩ := h.stagesAt hnew hnodup hpos hinit
  exact ⟨hstages.exact hnew hpos, fun d s' o hstep hroomy =>
    hstages.not_exact hfront hroomy hstep⟩

/-- A task with one stage. -/
def stageTask (iters : ℤ) : Task := ⟨0, 1, 0, 0, .autoParallelism [iters] [] 0, false⟩

theorem new_stageTask (iters : ℤ) : New [stageTask iters] := by
  rintro task (_ | ⟨_, htask⟩)
  · exact ⟨rfl, le_rfl⟩
  · cases htask

theorem positiveEntries_stageTask {iters : ℤ} (hpos : 0 < iters) :
    PositiveEntries [stageTask iters] := by
  rintro task (_ | ⟨_, htask⟩) epochIters batchsizes current htype entry hentry
  · obtain ⟨rfl, -, -⟩ := TaskType.autoParallelism.inj htype
    rwa [List.mem_singleton.mp hentry]
  · cases htask

/-- The scheduler after the task has been submitted. -/
def submitted (iters : ℤ) : AutoParallelismTaskScheduler :=
  ⟨[stageTask iters], .ofCluster (.oneProcess 2), { AutoParallelismPolicy.start with
    numTotalIters := iters }⟩

theorem roomy_submitted : (submitted 10).Roomy := by
  rintro task rest epochIters batchsizes current - - - -
  exact le_rfl

/-- Ten iterations are one trial. -/
theorem stages_run_exactly_ten :
    ∃ out s, stageIters out 0 0 = [10] ∧ isFinished s = true ∧
      StagesExact [stageTask 10] out s := by
  have hrun : run (schedStep (scheduler (.oneProcess 2))) (submitted 10)
      [.extractInstances .plain, .finishThread 0 1 7] =
      some (_, [.issued ⟨⟨0, 1, 0, 1, .autoParallelism [10] [] 10, false⟩, [(0, 1)]⟩,
        .finished 0 1]) := rfl
  have hexact := (stages_run_exactly (.oneProcess 2) [stageTask 10] (new_stageTask 10)
    (by decide) (positiveEntries_stageTask (by decide)) _ rfl _ _ ⟨_, ?_, hrun⟩).1
  · exact ⟨_, _, rfl, rfl, hexact⟩
  · apply along_cons rfl ⟨⟨trivial, nofun⟩, fun _ _ => roomy_submitted⟩
    apply along_cons rfl ⟨⟨by decide, nofun⟩, nofun⟩
    trivial

/-- Two trials of ten iterations, and a sub-epoch for what is left of the stage. -/
def outOfRoom : List SchedInput :=
  [.extractInstances .plain, .finishThread 0 1 1, .extractInstances .plain, .finishThread 0 0 2,
    .finishThread 0 1 2, .extractInstances .plain]

/-- **A trial does not look at what is left**: after two trials of a stage of five iterations, the
third sub-epoch is to run `5 - 20` iterations. -/
theorem trial_overruns_stage : ¬ ∀ (info : WorkerInfo) (tasks : List Task)
    (s₀ : AutoParallelismTaskScheduler) (out : List SchedEvent) (s : AutoParallelismTaskScheduler), New tasks →
    (tasks.map Task.id).Nodup → PositiveEntries tasks →
    initTasks (.start info) tasks = some s₀ → Reaches (scheduler info) NoTasks s₀ out s →
    ∀ id epoch, ∀ iters ∈ stageIters out id epoch, 0 < iters := by
  intro hclaim
  have hrun : (run (schedStep (scheduler (.oneProcess 2))) (submitted 5) outOfRoom).map
      (fun r => stageIters r.2 0 0) = some [10, 10, -15] := rfl
  obtain ⟨⟨s, out⟩, hrun, hiters⟩ := Option.map_eq_some_iff.mp hrun
  have hpos := hclaim (.oneProcess 2) [stageTask 5] (submitted 5) out s (new_stageTask 5)
    (by decide) (positiveEntries_stageTask (by decide)) rfl ⟨_, ?_, hrun⟩ 0 0 (-15)
    (by rw [hiters]; decide)
  · exact absurd hpos (by decide)
  · apply along_cons rfl ⟨trivial, nofun⟩
    apply along_cons rfl ⟨by decide, nofun⟩
    apply along_cons rfl ⟨trivial, nofun⟩
    apply along_cons rfl ⟨by decide, nofun⟩
    apply along_cons rfl ⟨by decide, nofun⟩
    apply along_cons rfl ⟨trivial, nofun⟩
    trivial

end AutoParallelismTaskScheduler

end FlexPS.Scheduler
