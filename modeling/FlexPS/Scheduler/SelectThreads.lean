import FlexPS.Scheduler.Selection
import Mathlib.Algebra.BigOperators.Group.List.Basic
import Mathlib.Algebra.GroupWithZero.Nat

/-!
# Selecting the threads of an instance

`select_threads_from_subset` takes the threads of an instance.  A `ConfigurableWorkersTask` says
for every epoch how its threads are chosen; the threads of a local task come from one candidate
process; those of other tasks are spread over the candidates.

## Main definitions

* `globalGuaranteeThreads` — the check of the tasks when they are submitted.
* `selectThreadsFromSubset` — the selection.
* `Fits` — the selection can succeed.
* `selectThreadsFromSubset_spec` — it takes free threads, of the candidates unless the task is
  configurable, and succeeds if and only if the task fits.
-/

namespace FlexPS.Scheduler

open Lib AvailableWorkers

/-! ## The check of submitted tasks -/

/-- One epoch of a `ConfigurableWorkersTask` can be run; `none` for an exception. -/
def guaranteeWorkerNum (info : WorkerInfo) (workerNum : ℕ) : WorkerNumType → Option Bool
  | .threadsPerWorker => some (workerNum * info.numProcesses ≤ info.numWorkers)
  | .threadsPerCluster => some (workerNum ≤ info.numWorkers)
  | .localThreads => some (info.pids.any fun pid => workerNum ≤ info.numLocalWorkers pid)
  | .threadsTraverseCluster => some (info.pids.all fun pid => workerNum ≤ info.numLocalWorkers pid)
  | .threadsOnWorker (some worker) =>
      some (workerNum ≤ if worker < 0 then 0 else info.numLocalWorkers worker.toNat)
  | .threadsOnWorker none | .illegal => none

/-- A task is guaranteed its threads. -/
def guaranteeThreads (info : WorkerInfo) (task : Task) : Bool :=
  match task.type with
  | .configurableWorkers workerNum workerNumType =>
      (List.range workerNumType.length).all fun i =>
        match workerNum[i]?, workerNumType[i]? with
        | some n, some type => guaranteeWorkerNum info n (.parse type) = some true
        | _, _ => false
  | _ => task.numWorkers ≤ info.numWorkers

/-- `global_guarantee_threads` throws no exception. -/
def globalGuaranteeThreads (info : WorkerInfo) (tasks : List Task) : Bool :=
  tasks.all (guaranteeThreads info)

/-! ## The selection -/

/-- The threads of an epoch of a `ConfigurableWorkersTask`; `none` for an exception. -/
def selectConfigured (d : Draw) (a : AvailableWorkers) (taskHistory : List ℕ) (numProcesses n : ℕ) :
    WorkerNumType → Option (List (ℕ × ℕ) × AvailableWorkers)
  | .threadsPerWorker => some (a.getWorkersPerProcess d n numProcesses)
  | .threadsPerCluster => some (a.getWorkers d n)
  | .localThreads => some (a.getLocalWorkers d n)
  | .threadsTraverseCluster => some (a.getTraverseWorkers d taskHistory n)
  | .threadsOnWorker none => none
  | .threadsOnWorker (some worker) =>
      -- no process has a negative number
      if worker < 0 then some ([], a) else some (a.getWorkersExactProcess d n worker.toNat)
  | .illegal => some ([], a)

/-- The least that the candidates can give evenly: `min_per_proc`. -/
def minPerProc (a : AvailableWorkers) (numProcesses required : ℕ) (candidateProc : List ℕ) : ℕ :=
  candidateProc.foldl (fun m pid =>
    if a.numAvailableLocalWorkers pid < m then a.numAvailableLocalWorkers pid else m)
    (required / numProcesses)

/-- `sum_available`. -/
def sumAvailable (a : AvailableWorkers) (candidateProc : List ℕ) : ℕ :=
  (candidateProc.map a.numAvailableLocalWorkers).sum

/-- The same number of threads from every candidate. -/
def takeEach (d : Draw) (n : ℕ) : List ℕ → List (ℕ × ℕ) × AvailableWorkers →
    List (ℕ × ℕ) × AvailableWorkers
  | [], r => r
  | pid :: pids, (pidTids, a) =>
      let taken := a.getWorkersExactProcess d n pid
      takeEach d n pids (pidTids ++ taken.1, taken.2)

/-- One pass over the candidates, a thread from each; the flag says that all threads are found. -/
def sweep (d : Draw) (required : ℕ) : List ℕ → List (ℕ × ℕ) × AvailableWorkers →
    (List (ℕ × ℕ) × AvailableWorkers) × Bool
  | [], r => (r, false)
  | pid :: pids, (pidTids, a) =>
      if 0 < a.numAvailableLocalWorkers pid then
        let taken := a.getWorkersExactProcess d 1 pid
        let pidTids := pidTids ++ taken.1
        if pidTids.length = required then ((pidTids, taken.2), true)
        else sweep d required pids (pidTids, taken.2)
      else sweep d required pids (pidTids, a)

/-- Pass over the candidates until all threads are found; `none` when the passes run out. -/
def sweepAll (d : Draw) (required : ℕ) (candidateProc : List ℕ) :
    ℕ → List (ℕ × ℕ) × AvailableWorkers → Option (List (ℕ × ℕ) × AvailableWorkers)
  | 0, _ => none
  | passes + 1, r =>
      let swept := sweep d required candidateProc r
      if swept.2 then some swept.1 else sweepAll d required candidateProc passes swept.1

/-- Threads from all candidates, first evenly and then one after another. -/
def selectSpread (d : Draw) (a : AvailableWorkers) (numProcesses required : ℕ)
    (candidateProc : List ℕ) : Option (List (ℕ × ℕ) × AvailableWorkers) :=
  if required ≤ sumAvailable a candidateProc then
    let n := minPerProc a numProcesses required candidateProc
    let evenly := if 0 < n then takeEach d n candidateProc ([], a) else ([], a)
    if evenly.1.length = required then some evenly
    else sweepAll d required candidateProc (required + 1) evenly
  else some ([], a)

/-- `select_threads_from_subset`, for the copy of the task in the instance. -/
def selectThreadsFromSubset (d : Draw) (task : Task) (taskHistory : List ℕ) (a : AvailableWorkers)
    (numProcesses required : ℕ) (candidateProc : List ℕ) :
    Option (List (ℕ × ℕ) × AvailableWorkers) :=
  match task.type with
  | .configurableWorkers workerNum workerNumType => do
      let currentPos := task.currentEpoch % workerNum.length
      let n ← workerNum[currentPos]?
      let type ← workerNumType[currentPos]?
      selectConfigured d a taskHistory numProcesses n (.parse type)
  | .basic =>
      if task.isLocal then some (a.getWorkersOfFirst d required candidateProc)
      else selectSpread d a numProcesses required candidateProc
  | .autoParallelism _ _ _ => selectSpread d a numProcesses required candidateProc

/-! ## When it succeeds -/

/-- The threads of an epoch of a `ConfigurableWorkersTask` are there. -/
def FitsConfigured (a : AvailableWorkers) (taskHistory : List ℕ) (numProcesses n : ℕ) :
    WorkerNumType → Prop
  | .threadsPerWorker => 0 < n ∧ 0 < numProcesses ∧ ∀ pid < numProcesses, n ≤ (a.tids pid).length
  | .threadsPerCluster => 0 < n ∧ n ≤ a.workers.length
  | .localThreads => 0 < n ∧ ∃ pid, n ≤ (a.tids pid).length
  | .threadsTraverseCluster => 0 < n ∧ ∃ pid ∈ potentialWorkers taskHistory, n ≤ (a.tids pid).length
  | .threadsOnWorker worker => ∃ w : ℕ, worker = some (w : ℤ) ∧ 0 < n ∧ n ≤ (a.tids w).length
  | .illegal => False

/-- The threads of the next epoch of the task are there. -/
def Fits (a : AvailableWorkers) (taskHistory : List ℕ) (numProcesses required : ℕ)
    (candidateProc : List ℕ) (task : Task) : Prop :=
  match task.type with
  | .configurableWorkers workerNum workerNumType =>
      ∃ n type, workerNum[task.currentEpoch % workerNum.length]? = some n ∧
        workerNumType[task.currentEpoch % workerNum.length]? = some type ∧
        FitsConfigured a taskHistory numProcesses n (.parse type)
  | .basic =>
      if task.isLocal then 0 < required ∧ ∃ pid ∈ candidateProc, required ≤ (a.tids pid).length
      else 0 < required ∧ required ≤ sumAvailable a candidateProc
  | .autoParallelism _ _ _ => 0 < required ∧ required ≤ sumAvailable a candidateProc

section Spec

variable {d : Draw} {a a' : AvailableWorkers} {taskHistory candidateProc : List ℕ}
  {numProcesses required n : ℕ} {selected : List (ℕ × ℕ)}

theorem selectConfigured_spec (h : a.Agree) {type : WorkerNumType}
    (hsel : selectConfigured d a taskHistory numProcesses n type = some (selected, a')) :
    Takes a selected a' ∧ (selected ≠ [] ↔ FitsConfigured a taskHistory numProcesses n type) := by
  cases type with
  | threadsPerWorker =>
      obtain ⟨rfl, rfl⟩ := Prod.mk.inj (Option.some.inj hsel)
      exact ⟨takes_getWorkersPerProcess h n _, getWorkersPerProcess_ne_nil h n _⟩
  | threadsPerCluster =>
      obtain ⟨rfl, rfl⟩ := Prod.mk.inj (Option.some.inj hsel)
      exact ⟨takes_getWorkers h n, getWorkers_ne_nil h n⟩
  | localThreads =>
      obtain ⟨rfl, rfl⟩ := Prod.mk.inj (Option.some.inj hsel)
      exact ⟨takes_getLocalWorkers h n, getLocalWorkers_ne_nil n⟩
  | threadsTraverseCluster =>
      obtain ⟨rfl, rfl⟩ := Prod.mk.inj (Option.some.inj hsel)
      exact ⟨takes_getTraverseWorkers h _ n, (getWorkersOfFirst_spec h n _).1⟩
  | threadsOnWorker worker =>
      cases worker with
      | none => cases hsel
      | some worker =>
          simp only [selectConfigured] at hsel
          split at hsel
          · next hneg =>
              obtain ⟨rfl, rfl⟩ := Prod.mk.inj (Option.some.inj hsel)
              refine ⟨h.takes_nil, fun hne => absurd rfl hne, fun ⟨w, hw, _⟩ => ?_⟩
              obtain rfl := Option.some.inj hw
              omega
          · next hpos =>
              obtain ⟨rfl, rfl⟩ := Prod.mk.inj (Option.some.inj hsel)
              refine ⟨takes_getWorkersExactProcess h n _,
                (getWorkersExactProcess_ne_nil h n _).trans ⟨fun hfit => ?_, fun ⟨w, hw, hfit⟩ => ?_⟩⟩
              · exact ⟨worker.toNat, by rw [Int.toNat_of_nonneg (not_lt.mp hpos)], hfit⟩
              · obtain rfl := Option.some.inj hw
                exact hfit
  | illegal =>
      obtain ⟨rfl, rfl⟩ := Prod.mk.inj (Option.some.inj hsel)
      exact ⟨h.takes_nil, fun hne => absurd rfl hne, False.elim⟩

/-! ### Spreading -/

private theorem sum_indicator {l : List ℕ} (hnodup : l.Nodup) {x : ℕ} (hx : x ∈ l) :
    (l.map fun y => if x = y then 1 else 0).sum = 1 := by
  induction l with
  | nil => cases hx
  | cons y l ih =>
      obtain ⟨hy, hnodup⟩ := List.nodup_cons.mp hnodup
      rw [List.map_cons, List.sum_cons]
      by_cases hxy : x = y
      · subst hxy
        have hzero : (l.map fun y => if x = y then 1 else 0).sum = 0 := by
          refine List.sum_eq_zero fun n hn => ?_
          obtain ⟨z, hz, rfl⟩ := List.mem_map.mp hn
          exact if_neg fun hxz : x = z => hy (hxz ▸ hz)
        rw [hzero, if_pos rfl]
      · rw [if_neg hxy, ih hnodup ((List.mem_cons.mp hx).resolve_left hxy)]

/-- What the candidates have left. -/
theorem AvailableWorkers.Takes.sumAvailable (h : Takes a selected a') (ha : a.Agree)
    (hnodup : candidateProc.Nodup) (hpids : ∀ p ∈ selected, p.1 ∈ candidateProc) :
    sumAvailable a' candidateProc + selected.length = sumAvailable a candidateProc := by
  have hcount : selected.length =
      (candidateProc.map fun pid => (selected.filter fun p => p.1 = pid).length).sum := by
    clear h
    induction selected with
    | nil => simp
    | cons p selected ih =>
        have hp := hpids p (List.mem_cons_self ..)
        have ih := ih fun q hq => hpids q (List.mem_cons_of_mem _ hq)
        rw [List.length_cons, ih, ← sum_indicator hnodup hp, ← List.sum_map_add]
        congr 1
        refine List.map_congr_left fun pid _ => ?_
        rw [List.filter_cons]
        by_cases hpid : p.1 = pid
        · simp [hpid]
        · simp [hpid]
  rw [hcount, Scheduler.sumAvailable, Scheduler.sumAvailable, ← List.sum_map_add]
  congr 1
  exact List.map_congr_left fun pid _ => h.length_tids ha pid

theorem minPerProc_le (a : AvailableWorkers) (numProcesses required : ℕ) (candidateProc : List ℕ) :
    minPerProc a numProcesses required candidateProc ≤ required / numProcesses ∧
      ∀ pid ∈ candidateProc,
        minPerProc a numProcesses required candidateProc ≤ (a.tids pid).length := by
  unfold minPerProc
  generalize required / numProcesses = m
  induction candidateProc generalizing m with
  | nil => exact ⟨le_rfl, nofun⟩
  | cons pid pids ih =>
      rw [List.foldl_cons]
      obtain ⟨hle, hall⟩ := ih (if a.numAvailableLocalWorkers pid < m then
        a.numAvailableLocalWorkers pid else m)
      have hmin : (if a.numAvailableLocalWorkers pid < m then a.numAvailableLocalWorkers pid
          else m) ≤ m ∧ (if a.numAvailableLocalWorkers pid < m then a.numAvailableLocalWorkers pid
          else m) ≤ (a.tids pid).length := by
        unfold numAvailableLocalWorkers
        split <;> omega
      refine ⟨hle.trans hmin.1, fun pid' hpid' => ?_⟩
      rcases List.mem_cons.mp hpid' with rfl | hpid'
      · exact hle.trans hmin.2
      · exact hall pid' hpid'

/-- Taking the same number from every candidate. -/
theorem takeEach_spec (ha : a.Agree) {pids : List ℕ} (hnodup : pids.Nodup)
    (henough : ∀ pid ∈ pids, n ≤ (a.tids pid).length) {r : List (ℕ × ℕ) × AvailableWorkers}
    (hr : Takes a r.1 r.2) (hnew : ∀ p ∈ r.1, p.1 ∉ pids) :
    Takes a (takeEach d n pids r).1 (takeEach d n pids r).2 ∧
    (takeEach d n pids r).1.length = r.1.length + n * pids.length ∧
    ∀ p ∈ (takeEach d n pids r).1, p ∈ r.1 ∨ p.1 ∈ pids := by
  induction pids generalizing r with
  | nil => exact ⟨hr, rfl, fun p hp => .inl hp⟩
  | cons pid pids ih =>
      obtain ⟨pidTids, b⟩ := r
      obtain ⟨hpid, hnodup⟩ := List.nodup_cons.mp hnodup
      have hb := hr.agree ha
      -- nothing has been taken from this process
      have hlen : (b.tids pid).length = (a.tids pid).length := by
        have hcount := hr.length_tids ha pid
        have hnone : (pidTids.filter fun p => p.1 = pid) = [] := by
          refine List.filter_eq_nil_iff.mpr fun p hp => ?_
          rw [decide_eq_true_eq]
          rintro rfl
          exact hnew p hp (List.mem_cons_self ..)
        rw [hnone] at hcount
        exact hcount
      obtain ⟨hcount, hfrom⟩ := getWorkersExactProcess_spec (d := d) hb n pid
      rw [hlen, if_pos (henough pid (List.mem_cons_self ..))] at hcount
      have htaken := hr.trans (takes_getWorkersExactProcess (d := d) hb n pid)
      have hnew' : ∀ p ∈ pidTids ++ (b.getWorkersExactProcess d n pid).1, p.1 ∉ pids := by
        intro p hp
        rcases List.mem_append.mp hp with hp | hp
        · exact fun hmem => hnew p hp (List.mem_cons_of_mem _ hmem)
        · rw [hfrom p hp]
          exact hpid
      obtain ⟨htakes, hlength, hmem⟩ := ih hnodup
        (fun pid' hpid' => henough pid' (List.mem_cons_of_mem _ hpid'))
        (r := (_, (b.getWorkersExactProcess d n pid).2)) htaken hnew'
      refine ⟨htakes, ?_, fun p hp => ?_⟩
      · simp only [takeEach, hlength, List.length_append, hcount, List.length_cons, Nat.mul_add]
        omega
      · rcases hmem p hp with hp | hp
        · rcases List.mem_append.mp hp with hp | hp
          · exact .inl hp
          · exact .inr (hfrom p hp ▸ List.mem_cons_self ..)
        · exact .inr (List.mem_cons_of_mem _ hp)

/-- One pass takes free threads, and some when there are any. -/
theorem sweep_spec (ha : a.Agree) (pids : List ℕ) {r : List (ℕ × ℕ) × AvailableWorkers}
    (hr : Takes a r.1 r.2) (hlt : r.1.length < required) :
    Takes a (sweep d required pids r).1.1 (sweep d required pids r).1.2 ∧
    (∀ p ∈ (sweep d required pids r).1.1, p ∈ r.1 ∨ p.1 ∈ pids) ∧
    r.1.length ≤ (sweep d required pids r).1.1.length ∧
    (if (sweep d required pids r).2 then (sweep d required pids r).1.1.length = required
      else (sweep d required pids r).1.1.length < required ∧
        ((∃ pid ∈ pids, r.2.tids pid ≠ []) →
          r.1.length < (sweep d required pids r).1.1.length)) := by
  induction pids generalizing r with
  | nil => exact ⟨hr, fun p hp => .inl hp, le_rfl, hlt, nofun⟩
  | cons pid pids ih =>
      obtain ⟨pidTids, b⟩ := r
      have hb := hr.agree ha
      simp only [sweep]
      by_cases hsome : 0 < b.numAvailableLocalWorkers pid
      · rw [if_pos hsome]
        obtain ⟨hcount, hfrom⟩ := getWorkersExactProcess_spec (d := d) hb 1 pid
        rw [if_pos (show 1 ≤ (b.tids pid).length from hsome)] at hcount
        have htaken := hr.trans (takes_getWorkersExactProcess (d := d) hb 1 pid)
        have hlen : (pidTids ++ (b.getWorkersExactProcess d 1 pid).1).length =
            pidTids.length + 1 := by
          rw [List.length_append, hcount]
        have hmem : ∀ p ∈ pidTids ++ (b.getWorkersExactProcess d 1 pid).1,
            p ∈ pidTids ∨ p.1 ∈ pid :: pids := by
          intro p hp
          rcases List.mem_append.mp hp with hp | hp
          · exact .inl hp
          · exact .inr (hfrom p hp ▸ List.mem_cons_self ..)
        by_cases hdone : (pidTids ++ (b.getWorkersExactProcess d 1 pid).1).length = required
        · rw [if_pos hdone]
          exact ⟨htaken, hmem, by simp, hdone⟩
        · rw [if_neg hdone]
          simp only at hlt
          obtain ⟨htakes, hmem', hle, hend⟩ := ih (r := (pidTids ++
            (b.getWorkersExactProcess d 1 pid).1, (b.getWorkersExactProcess d 1 pid).2)) htaken
            (by simp only; omega)
          simp only at hle hend
          refine ⟨htakes, fun p hp => ?_, by omega, ?_⟩
          · rcases hmem' p hp with hp | hp
            · exact hmem p hp
            · exact .inr (List.mem_cons_of_mem _ hp)
          · split at hend
            · next hflag => rw [if_pos hflag]; exact hend
            · next hflag =>
                rw [if_neg hflag]
                exact ⟨hend.1, fun _ => by omega⟩
      · rw [if_neg hsome]
        obtain ⟨htakes, hmem, hle, hend⟩ := ih (r := (pidTids, b)) hr hlt
        refine ⟨htakes, fun p hp => ?_, hle, ?_⟩
        · rcases hmem p hp with hp | hp
          · exact .inl hp
          · exact .inr (List.mem_cons_of_mem _ hp)
        · split at hend
          · next hflag => rw [if_pos hflag]; exact hend
          · next hflag =>
              rw [if_neg hflag]
              refine ⟨hend.1, fun ⟨pid', hpid', hne⟩ => hend.2 ⟨pid', ?_, hne⟩⟩
              refine (List.mem_cons.mp hpid').resolve_left ?_
              rintro rfl
              exact hsome (List.length_pos_iff_ne_nil.mpr hne)

/-- The passes find all threads when there are enough. -/
theorem sweepAll_spec (ha : a.Agree) (hnodup : candidateProc.Nodup)
    (henough : required ≤ sumAvailable a candidateProc) {passes : ℕ}
    {r : List (ℕ × ℕ) × AvailableWorkers} (hr : Takes a r.1 r.2) (hlt : r.1.length < required)
    (hpasses : required < passes + r.1.length) (hpids : ∀ p ∈ r.1, p.1 ∈ candidateProc) :
    ∃ selected a', sweepAll d required candidateProc passes r = some (selected, a') ∧
      Takes a selected a' ∧ selected.length = required ∧ ∀ p ∈ selected, p.1 ∈ candidateProc := by
  induction passes generalizing r with
  | zero => omega
  | succ passes ih =>
      obtain ⟨htakes, hmem, hle, hend⟩ := sweep_spec (d := d) ha candidateProc hr hlt
      have hpids' : ∀ p ∈ (sweep d required candidateProc r).1.1, p.1 ∈ candidateProc :=
        fun p hp => (hmem p hp).elim (hpids p) id
      simp only [sweepAll]
      split at hend
      · next hflag =>
          rw [if_pos hflag]
          exact ⟨_, _, rfl, htakes, hend, hpids'⟩
      · next hflag =>
          rw [if_neg hflag]
          have hsome : ∃ pid ∈ candidateProc, r.2.tids pid ≠ [] := by
            by_contra hnone
            push Not at hnone
            have hsum := hr.sumAvailable ha hnodup hpids
            have hzero : sumAvailable r.2 candidateProc = 0 := by
              refine List.sum_eq_zero fun m hm => ?_
              obtain ⟨pid, hpid, rfl⟩ := List.mem_map.mp hm
              rw [numAvailableLocalWorkers, hnone pid hpid]
              rfl
            omega
          have hmore := hend.2 hsome
          exact ih htakes hend.1 (by omega) hpids'

/-- **Spreading over the candidates** takes all threads or none. -/
theorem selectSpread_spec (ha : a.Agree) (hnodup : candidateProc.Nodup)
    (hlt : ∀ pid ∈ candidateProc, pid < numProcesses) :
    ∃ selected a', selectSpread d a numProcesses required candidateProc = some (selected, a') ∧
      Takes a selected a' ∧
      selected.length = (if required ≤ sumAvailable a candidateProc then required else 0) ∧
      ∀ p ∈ selected, p.1 ∈ candidateProc := by
  unfold selectSpread
  split
  · next henough =>
      obtain ⟨hle, hmin⟩ := minPerProc_le a numProcesses required candidateProc
      set n := minPerProc a numProcesses required candidateProc
      have heven : ∃ r : List (ℕ × ℕ) × AvailableWorkers,
          (if 0 < n then takeEach d n candidateProc ([], a) else ([], a)) = r ∧
          Takes a r.1 r.2 ∧ r.1.length ≤ required ∧ ∀ p ∈ r.1, p.1 ∈ candidateProc := by
        refine ⟨_, rfl, ?_⟩
        split
        · obtain ⟨htakes, hlen, hmem⟩ := takeEach_spec (d := d) ha hnodup hmin (r := ([], a))
            ha.takes_nil nofun
          refine ⟨htakes, ?_, fun p hp => (hmem p hp).resolve_left nofun⟩
          have hcard : candidateProc.length ≤ numProcesses := by
            have hsub : candidateProc.Subperm (List.range numProcesses) :=
              List.subperm_of_subset hnodup fun pid hpid => List.mem_range.mpr (hlt pid hpid)
            have hsublen := hsub.length_le
            rwa [List.length_range] at hsublen
          rw [hlen, List.length_nil, Nat.zero_add]
          calc n * candidateProc.length ≤ required / numProcesses * numProcesses :=
                Nat.mul_le_mul hle hcard
            _ ≤ required := Nat.div_mul_le_self required numProcesses
        · exact ⟨ha.takes_nil, Nat.zero_le _, nofun⟩
      obtain ⟨r, hr, htakes, hlen, hpids⟩ := heven
      simp only [hr]
      split
      · next hall => exact ⟨_, _, rfl, htakes, hall, hpids⟩
      · next hmore =>
          exact sweepAll_spec ha hnodup henough htakes (lt_of_le_of_ne hlen hmore) (by omega) hpids
  · exact ⟨_, _, rfl, ha.takes_nil, rfl, nofun⟩

/-- **What `select_threads_from_subset` selects**: free threads, of the candidates unless the task
is configurable; and some if and only if the task fits. -/
theorem selectThreadsFromSubset_spec (ha : a.Agree) (hnodup : candidateProc.Nodup)
    (hlt : ∀ pid ∈ candidateProc, pid < numProcesses) {task : Task}
    (hsel : selectThreadsFromSubset d task taskHistory a numProcesses required candidateProc =
      some (selected, a')) :
    Takes a selected a' ∧
    (task.isConfigurable = false → ∀ p ∈ selected, p.1 ∈ candidateProc) ∧
    (selected ≠ [] ↔ Fits a taskHistory numProcesses required candidateProc task) := by
  have hspread : selectSpread d a numProcesses required candidateProc = some (selected, a') →
      Takes a selected a' ∧ (∀ p ∈ selected, p.1 ∈ candidateProc) ∧
      (selected ≠ [] ↔ 0 < required ∧ required ≤ sumAvailable a candidateProc) := by
    intro hsel
    obtain ⟨_, _, heq, htakes, hlen, hpids⟩ : ∃ selected a',
        selectSpread d a numProcesses required candidateProc = some (selected, a') ∧ _ :=
      selectSpread_spec ha hnodup hlt
    obtain ⟨rfl, rfl⟩ := Prod.mk.inj (Option.some.inj (heq.symm.trans hsel))
    refine ⟨htakes, hpids, ?_⟩
    rw [← List.length_pos_iff_ne_nil, hlen]
    split
    · next hle => simp [hle]
    · next hle => simp [hle]
  unfold selectThreadsFromSubset at hsel
  unfold Fits Task.isConfigurable
  cases htype : task.type with
  | configurableWorkers workerNum workerNumType =>
      rw [htype] at hsel
      obtain ⟨n, hn, hsel⟩ := Option.bind_eq_some_iff.mp hsel
      obtain ⟨type, htype', hsel⟩ := Option.bind_eq_some_iff.mp hsel
      obtain ⟨htakes, hfits⟩ := selectConfigured_spec ha hsel
      refine ⟨htakes, nofun, hfits.trans ⟨fun hfit => ⟨n, type, hn, htype', hfit⟩, ?_⟩⟩
      rintro ⟨n', type', hn', htype'', hfit⟩
      obtain rfl := Option.some.inj (hn.symm.trans hn')
      obtain rfl := Option.some.inj (htype'.symm.trans htype'')
      exact hfit
  | basic =>
      rw [htype] at hsel
      simp only at hsel ⊢
      split at hsel
      · next hlocal =>
          obtain ⟨rfl, rfl⟩ := Prod.mk.inj (Option.some.inj hsel)
          obtain ⟨hfits, -, hpids⟩ := getWorkersOfFirst_spec (d := d) ha required candidateProc
          rw [if_pos hlocal]
          exact ⟨takes_getWorkersOfFirst ha required candidateProc, fun _ => hpids, hfits⟩
      · next hlocal =>
          rw [if_neg hlocal]
          obtain ⟨htakes, hpids, hfits⟩ := hspread hsel
          exact ⟨htakes, fun _ => hpids, hfits⟩
  | autoParallelism iters batchsizes stage =>
      rw [htype] at hsel
      obtain ⟨htakes, hpids, hfits⟩ := hspread hsel
      exact ⟨htakes, fun _ => hpids, hfits⟩

/-- The threads that one of the processes gives. -/
theorem getWorkersOfFirst_oneProcess (ha : a.Agree) (n : ℕ) (pids : List ℕ)
    (hne : (a.getWorkersOfFirst d n pids).1 ≠ []) :
    ∃ pid ∈ pids, ∀ p ∈ (a.getWorkersOfFirst d n pids).1, p.1 = pid := by
  rcases getWorkersOfFirst_cases (d := d) (a := a) n pids with hnone | ⟨pid, hpid, heq, -⟩
  · rw [hnone] at hne
    exact absurd rfl hne
  · rw [heq]
    exact ⟨pid, hpid, (getWorkersExactProcess_spec ha n pid).2⟩

/-- A task that traverses the cluster gets the threads of one process: a candidate, or a process that
`get_traverse_workers` finds. -/
theorem selectThreadsFromSubset_traverses (ha : a.Agree) {task : Task}
    (htraverses : task.traverses = true) (hne : selected ≠ [])
    (hsel : selectThreadsFromSubset d task taskHistory a numProcesses required candidateProc =
      some (selected, a')) :
    ∃ pid, (pid ∈ candidateProc ∨ pid ∈ potentialWorkers taskHistory) ∧
      ∀ p ∈ selected, p.1 = pid := by
  unfold Task.traverses at htraverses
  unfold selectThreadsFromSubset at hsel
  cases htype : task.type with
  | basic =>
      simp only [htype] at htraverses hsel
      rw [if_pos htraverses] at hsel
      obtain ⟨rfl, rfl⟩ := Prod.mk.inj (Option.some.inj hsel)
      obtain ⟨pid, hpid, hall⟩ := getWorkersOfFirst_oneProcess ha required candidateProc hne
      exact ⟨pid, .inl hpid, hall⟩
  | configurableWorkers workerNum workerNumType =>
      simp only [htype] at htraverses hsel
      obtain ⟨n, -, hsel⟩ := Option.bind_eq_some_iff.mp hsel
      obtain ⟨type, htype', hsel⟩ := Option.bind_eq_some_iff.mp hsel
      rw [htype', Option.map_some, decide_eq_true_eq, Option.some.injEq] at htraverses
      rw [htraverses] at hsel
      obtain ⟨rfl, rfl⟩ := Prod.mk.inj (Option.some.inj hsel)
      obtain ⟨pid, hpid, hall⟩ := getWorkersOfFirst_oneProcess ha n (potentialWorkers taskHistory) hne
      exact ⟨pid, .inr hpid, hall⟩
  | autoParallelism iters batchsizes stage =>
      rw [htype] at htraverses
      cases htraverses

/-- All required threads are taken, each once, from the candidates; or nothing is taken. -/
structure AllOrNothing (a : AvailableWorkers) (required : ℕ) (candidateProc : List ℕ)
    (isLocal : Bool) (selected : List (ℕ × ℕ)) (a' : AvailableWorkers) : Prop where
  takes : Takes a selected a'
  length : selected = [] ∧ a' = a ∨ selected.length = required
  candidates : ∀ p ∈ selected, p.1 ∈ candidateProc
  oneProcess : isLocal = true → ∀ p ∈ selected, ∀ q ∈ selected, p.1 = q.1
  enough : isLocal = false → selected = [] → sumAvailable a candidateProc < required

theorem getWorkersOfFirst_allOrNothing (ha : a.Agree) (n : ℕ) (pids : List ℕ) :
    AllOrNothing a n pids true (a.getWorkersOfFirst d n pids).1
      (a.getWorkersOfFirst d n pids).2 := by
  refine ⟨takes_getWorkersOfFirst ha n pids, ?_, (getWorkersOfFirst_spec ha n pids).2.2, ?_, nofun⟩
  · rcases getWorkersOfFirst_cases (d := d) (a := a) n pids with hnone | ⟨pid, -, heq, hne⟩
    · rw [hnone]
      exact .inl ⟨rfl, rfl⟩
    · have hlen := (getWorkersExactProcess_spec (d := d) ha n pid).1
      rw [if_pos ((getWorkersExactProcess_ne_nil ha n pid).mp hne).2] at hlen
      exact .inr (heq ▸ hlen)
  · rintro - p hp q hq
    rcases getWorkersOfFirst_cases (d := d) (a := a) n pids with hnone | ⟨pid, -, heq, -⟩
    · rw [hnone] at hp
      cases hp
    · rw [heq] at hp hq
      have hfrom := (getWorkersExactProcess_spec (d := d) ha n pid).2
      exact (hfrom p hp).trans (hfrom q hq).symm

theorem selectSpread_allOrNothing (hrequired : 1 ≤ required) (ha : a.Agree)
    (hnodup : candidateProc.Nodup) (hlt : ∀ pid ∈ candidateProc, pid < numProcesses) :
    ∃ selected a', selectSpread d a numProcesses required candidateProc = some (selected, a') ∧
      AllOrNothing a required candidateProc false selected a' := by
  by_cases henough : required ≤ sumAvailable a candidateProc
  · obtain ⟨selected, a', heq, htakes, hlen, hpids⟩ : ∃ selected a',
        selectSpread d a numProcesses required candidateProc = some (selected, a') ∧ _ :=
      selectSpread_spec ha hnodup hlt
    rw [if_pos henough] at hlen
    refine ⟨selected, a', heq, htakes, .inr hlen, hpids, nofun, fun _ hnil => ?_⟩
    rw [hnil, List.length_nil] at hlen
    omega
  · exact ⟨[], a, if_neg henough, ha.takes_nil, .inl ⟨rfl, rfl⟩, nofun, nofun,
      fun _ _ => not_le.mp henough⟩

/-- **`select_threads_from_subset` takes all threads of a basic task or none**, and it always
returns; for a task that is not local it takes none only if the candidates do not have enough. -/
theorem selectThreadsFromSubset_allOrNothing (d : Draw) (a : AvailableWorkers) (ha : a.Agree)
    (numProcesses required : ℕ) (hrequired : 1 ≤ required) (candidateProc : List ℕ)
    (hnodup : candidateProc.Nodup) (hlt : ∀ pid ∈ candidateProc, pid < numProcesses)
    (taskHistory : List ℕ) (task : Task) (hbasic : task.type = .basic) :
    ∃ selected a', selectThreadsFromSubset d task taskHistory a numProcesses required
        candidateProc = some (selected, a') ∧
      AllOrNothing a required candidateProc task.isLocal selected a' := by
  unfold selectThreadsFromSubset
  rw [hbasic]
  cases task.isLocal with
  | true => exact ⟨_, _, rfl, getWorkersOfFirst_allOrNothing ha required candidateProc⟩
  | false => exact selectSpread_allOrNothing hrequired ha hnodup hlt

/-- Two threads of three processes with a thread each, for a task that is not local. -/
theorem selectThreadsFromSubset_allOrNothing_oneEach : ∃ selected a',
    selectThreadsFromSubset .plain ⟨0, 1, 0, 2, .basic, false⟩ [0, 0, 0] (ofCluster (.oneEach 3)) 3 2
      [0, 1, 2] = some (selected, a') ∧
    AllOrNothing (ofCluster (.oneEach 3)) 2 [0, 1, 2] false selected a' :=
  selectThreadsFromSubset_allOrNothing .plain _ (ofCluster_spec (.oneEach 3)).1 3 2 (by decide)
    [0, 1, 2] (by decide) (by decide) [0, 0, 0] ⟨0, 1, 0, 2, .basic, false⟩ rfl

end Spec

end FlexPS.Scheduler
