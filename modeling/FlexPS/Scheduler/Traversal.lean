import FlexPS.Scheduler.AutoParallelismTaskScheduler
import FlexPS.Scheduler.Conservation

/-!
# Traversing the cluster

A task that runs every epoch on one process, always one of those that it has visited least, visits
all processes equally often: whatever other tasks occupy, it waits for a process whose turn it is.

## Main definitions

* `LeastVisited` — no process has been visited less often.
* `visits` — how many epochs of a task have run on a process.
* `Placement.Balanced` — the history counts the visits, and they differ by at most one.
* `traversal_balanced` — the statement for the four schedulers.
* `priority_visits_twice` — what happens to the priority scheduler when the ids are not positions.
-/

namespace FlexPS.Scheduler

open Lib AvailableWorkers

/-! ## The least visited processes -/

/-- No process has been visited less often. -/
def LeastVisited (history : List ℕ) (pid : ℕ) : Prop :=
  ∃ least, history[pid]? = some least ∧ ∀ n ∈ history, least ≤ n

theorem foldl_least_le (history : List ℕ) (first : ℕ) :
    history.foldl (fun least n => if n < least then n else least) first ≤ first ∧
    ∀ n ∈ history, history.foldl (fun least n => if n < least then n else least) first ≤ n := by
  induction history generalizing first with
  | nil => exact ⟨le_rfl, nofun⟩
  | cons m history ih =>
      rw [List.foldl_cons]
      obtain ⟨hle, hall⟩ := ih (if m < first then m else first)
      have hmin : (if m < first then m else first) ≤ first ∧
          (if m < first then m else first) ≤ m := by
        split <;> omega
      refine ⟨hle.trans hmin.1, fun n hn => ?_⟩
      rcases List.mem_cons.mp hn with rfl | hn
      · exact hle.trans hmin.2
      · exact hall n hn

theorem leastVisited_of_mem_preferredProc {history : List ℕ} {pid : ℕ}
    (h : pid ∈ preferredProc history) : LeastVisited history pid :=
  ⟨_, of_decide_eq_true (List.mem_filter.mp h).2, (foldl_least_le history _).2⟩

theorem leastVisited_of_mem_potentialWorkers {history : List ℕ} {pid : ℕ}
    (h : pid ∈ potentialWorkers history) : LeastVisited history pid :=
  ⟨_, of_decide_eq_true (List.mem_filter.mp h).2, (foldl_least_le history _).2⟩

/-! ## Visits -/

/-- The event is an epoch of the task on the process. -/
def SchedEvent.visits (id pid : ℕ) : SchedEvent → Bool
  | issued instance_ => instance_.id = id ∧ pid ∈ instance_.threads.map Prod.fst
  | _ => false

/-- How many epochs of the task have run on the process. -/
def visits (out : List SchedEvent) (id pid : ℕ) : ℕ := out.countP (SchedEvent.visits id pid)

/-- All epochs of the task traverse the cluster. -/
def AlwaysTraverses (out : List SchedEvent) (id : ℕ) : Prop :=
  ∀ instance_, .issued instance_ ∈ out → instance_.id = id → instance_.task.traverses = true

/-- The numbers of epochs on the processes differ by at most one. -/
def Even (info : WorkerInfo) (out : List SchedEvent) (id : ℕ) : Prop :=
  ∀ pid < info.numProcesses, ∀ pid' < info.numProcesses,
    visits out id pid ≤ visits out id pid' + 1

variable {info : WorkerInfo} {out : List SchedEvent} {id pid : ℕ} {instance_ : Instance}

theorem visits_snoc (out : List SchedEvent) (e : SchedEvent) (id pid : ℕ) :
    visits (out ++ [e]) id pid = visits out id pid + if e.visits id pid then 1 else 0 := by
  rw [visits, List.countP_append, List.countP_singleton]
  rfl

theorem visits_snoc_of_none {e : SchedEvent} (he : e.visits id pid = false) :
    visits (out ++ [e]) id pid = visits out id pid := by
  rw [visits_snoc, he]
  rfl

theorem visits_issued (out : List SchedEvent) (instance_ : Instance) (id pid : ℕ) :
    visits (out ++ [.issued instance_]) id pid = visits out id pid +
      if instance_.id = id ∧ pid ∈ instance_.threads.map Prod.fst then 1 else 0 := by
  rw [visits_snoc]
  simp only [SchedEvent.visits, decide_eq_true_eq]

theorem AlwaysTraverses.of_append {out' : List SchedEvent} (h : AlwaysTraverses (out ++ out') id) :
    AlwaysTraverses out id :=
  fun instance_ hmem => h instance_ (List.mem_append_left _ hmem)

/-- **One more epoch on a process that has been visited least** keeps the balance. -/
theorem Even.issue (h : Even info out id) {threads : List (ℕ × ℕ)} {task : Task}
    (hleast : ∀ pid' < info.numProcesses, visits out id pid ≤ visits out id pid')
    (hone : ∀ th ∈ threads, th.1 = pid) :
    Even info (out ++ [.issued ⟨task, threads⟩]) id := by
  intro pid₁ hpid₁ pid₂ hpid₂
  have heven := h pid₁ hpid₁ pid₂ hpid₂
  rw [visits_issued, visits_issued]
  by_cases hvisit : (⟨task, threads⟩ : Instance).id = id ∧ pid₁ ∈ threads.map Prod.fst
  · obtain ⟨th, hth, rfl⟩ := List.mem_map.mp hvisit.2
    have hpid := hone th hth
    have hle := hleast pid₂ hpid₂
    rw [if_pos hvisit, hpid]
    omega
  · rw [if_neg hvisit]
    omega

namespace Placement

variable {p p' : Placement}

/-! ## The history counts the visits -/

/-- **The traversal is balanced**: the history counts the visits of the task, at every point so far
they have differed by at most one, and no process has been visited twice before all have been
visited. -/
structure Balanced (info : WorkerInfo) (out : List SchedEvent) (p : Placement) (id : ℕ) : Prop where
  history : ∀ pid < info.numProcesses,
    (p.history.getTaskHistory id)[pid]? = some (visits out id pid)
  even : ∀ before, before <+: out → Even info before id
  again : ∀ before, before <+: out → (∃ pid < info.numProcesses, 2 ≤ visits before id pid) →
    ∀ pid < info.numProcesses, 1 ≤ visits before id pid

/-- The history counts the visits of all tasks, and those of a task that always traverses the
cluster are even. -/
structure CountsVisits (info : WorkerInfo) (out : List SchedEvent) (p : Placement) : Prop where
  history : ∀ id pid, pid < info.numProcesses →
    (p.history.getTaskHistory id)[pid]? = some (visits out id pid)
  even : ∀ id, AlwaysTraverses out id → ∀ before, before <+: out → Even info before id

theorem countsVisits_ofCluster (info : WorkerInfo) : CountsVisits info [] (ofCluster info) where
  history id pid hpid := by
    change (List.replicate info.numProcesses 0)[pid]? = some 0
    rw [List.getElem?_replicate, if_pos hpid]
  even id _ before hbefore := by
    rw [List.prefix_nil.mp hbefore]
    exact fun _ _ _ _ => Nat.zero_le _

theorem CountsVisits.balanced (h : CountsVisits info out p) (halways : AlwaysTraverses out id) :
    Balanced info out p id := by
  refine ⟨h.history id, h.even id halways, fun before hbefore => ?_⟩
  rintro ⟨pid, hpid, htwice⟩ pid' hpid'
  have heven := h.even id halways before hbefore pid hpid pid' hpid'
  omega

/-- Other events do not matter. -/
theorem CountsVisits.snoc_of_none (h : CountsVisits info out p) {e : SchedEvent}
    (he : ∀ id pid, e.visits id pid = false) (hhistory : p'.history = p.history) :
    CountsVisits info (out ++ [e]) p' where
  history id pid hpid := by
    rw [hhistory, visits_snoc_of_none (he id pid)]
    exact h.history id pid hpid
  even id halways before hbefore := by
    rcases List.prefix_concat_iff.mp hbefore with rfl | hbefore
    · intro pid hpid pid' hpid'
      rw [visits_snoc_of_none (he id pid), visits_snoc_of_none (he id pid')]
      exact h.even id halways.of_append out (List.prefix_refl out) pid hpid pid' hpid'
    · exact h.even id halways.of_append before hbefore

theorem CountsVisits.congr (h : CountsVisits info out p) (hhistory : p'.history = p.history) :
    CountsVisits info out p' :=
  ⟨hhistory ▸ h.history, h.even⟩

/-- **An instance is issued**, on one of the least visited processes if its task traverses the
cluster. -/
theorem CountsVisits.issue (h : CountsVisits info out p) (hsized : p.history.Sized info)
    (hhistory : p'.history = p.history.updateHistory instance_.id instance_.threads)
    (hone : instance_.task.traverses = true → ∃ pid,
      LeastVisited (p.history.getTaskHistory instance_.id) pid ∧
      ∀ th ∈ instance_.threads, th.1 = pid) :
    CountsVisits info (out ++ [.issued instance_]) p' where
  history id pid hpid := by
    rw [hhistory, HistoryManager.getTaskHistory_updateHistory, visits_issued]
    split
    · next heq =>
        subst heq
        rw [List.getElem?_mapIdx, h.history instance_.id pid hpid, Option.map_some]
        split
        · next hmem => rw [if_pos ⟨rfl, hmem⟩]
        · next hmem => rw [if_neg fun hvisit => hmem hvisit.2, Nat.add_zero]
    · next hne =>
        rw [if_neg fun hvisit => hne hvisit.1.symm, Nat.add_zero]
        exact h.history id pid hpid
  even id halways before hbefore := by
    rcases List.prefix_concat_iff.mp hbefore with rfl | hbefore
    · have heven := h.even id halways.of_append out (List.prefix_refl out)
      by_cases hid : instance_.id = id
      · subst hid
        have hmem : SchedEvent.issued instance_ ∈ out ++ [.issued instance_] :=
          List.mem_append_right _ (List.mem_singleton_self _)
        obtain ⟨pid, ⟨least, hpid, hleast⟩, hall⟩ := hone (halways instance_ hmem rfl)
        have hlt : pid < info.numProcesses :=
          hsized instance_.id ▸ (List.getElem?_eq_some_iff.mp hpid).1
        obtain rfl := Option.some.inj (hpid.symm.trans (h.history instance_.id pid hlt))
        exact heven.issue (fun pid' hpid' =>
          hleast _ (List.mem_of_getElem? (h.history instance_.id pid' hpid'))) hall
      · intro pid hpid pid' hpid'
        rw [visits_issued, visits_issued, if_neg fun hvisit => hid hvisit.1,
          if_neg fun hvisit => hid hvisit.1]
        exact heven pid hpid pid' hpid'
    · exact h.even id halways.of_append before hbefore

variable {d : Draw} {task : Task} {candidateProc : List ℕ}

/-- A task that traverses the cluster is offered the processes that it has visited least. -/
theorem leastVisited_of_mem_getCandidateProc (htraverses : task.traverses = true)
    (hpid : pid ∈ p.getCandidateProc info id task) :
    LeastVisited (p.history.getTaskHistory id) pid := by
  unfold getCandidateProc at hpid
  split at hpid
  · next hspread =>
      unfold Task.traverses at htraverses
      rw [of_decide_eq_true hspread.1] at htraverses
      rw [hspread.2] at htraverses
      cases htraverses
  · exact leastVisited_of_mem_preferredProc hpid

/-- An instance is placed. -/
theorem Placed.countsVisits (hplaced : Placed info out p task candidateProc instance_ p')
    (h : CountsVisits info out p) (hsized : p.history.Sized info)
    (hcand : task.traverses = true → ∀ pid ∈ candidateProc,
      LeastVisited (p.history.getTaskHistory task.id) pid) :
    CountsVisits info (out ++ [.issued instance_]) p' := by
  have hid : instance_.id = task.id := congrArg Task.id hplaced.task_eq
  refine h.issue hsized (hid ▸ hplaced.history_eq) fun htraverses => ?_
  rw [hplaced.task_eq] at htraverses
  obtain ⟨pid, hpid, hall⟩ := hplaced.oneProcess htraverses
  rw [hid]
  exact ⟨pid, hpid.elim (hcand htraverses pid) leastVisited_of_mem_potentialWorkers, hall⟩

theorem CountsVisits.refused (h : CountsVisits info out p) (hhistory : p'.history = p.history) :
    CountsVisits info (out ++ [.refused]) p' :=
  h.snoc_of_none (fun _ _ => rfl) hhistory

theorem CountsVisits.submitted (h : CountsVisits info out p) (tasks : List Task) :
    CountsVisits info (out ++ [.submitted tasks]) p :=
  h.snoc_of_none (fun _ _ => rfl) rfl

theorem CountsVisits.finishThread (h : CountsVisits info out p) (id tid : ℕ) :
    CountsVisits info (out ++ [.finished id tid]) (p.finishThread info id tid).1 :=
  h.snoc_of_none (fun _ _ => rfl) rfl

theorem CountsVisits.dropInstance (h : CountsVisits info out p) (id : ℕ) :
    CountsVisits info out (p.dropInstance id) :=
  h.congr rfl

/-- `task_to_instance` issues an instance, or throws. -/
theorem CountsVisits.taskToInstance (h : CountsVisits info out p) (hsound : p.Sound info out)
    {o : List SchedEvent} (hstep : p.taskToInstance info d task = some (p', o)) :
    CountsVisits info (out ++ o) p' := by
  rcases hsound.taskToInstance hstep with ⟨instance_, rfl, hplaced⟩ | ⟨rfl, hnot⟩
  · refine hplaced.countsVisits h hsound.sized fun _ pid hpid => ?_
    rw [instanceBasicSetup_id]
    exact leastVisited_of_mem_preferredProc hpid
  · exact h.refused hnot.history_eq

end Placement

/-! ## The schedulers -/

section Schedulers

open Placement

variable {o : List SchedEvent} {d : Draw} {tid time : ℕ}

theorem SequentialTaskScheduler.counts_extract {s s' : SequentialTaskScheduler}
    (h : CountsVisits info out s.placement) (hsound : s.placement.Sound info out)
    (hstep : extractInstances info d s = some (s', o)) :
    CountsVisits info (out ++ o) s'.placement := by
  unfold extractInstances at hstep
  split at hstep
  · obtain ⟨rfl, rfl⟩ := Prod.mk.inj (Option.some.inj hstep)
    rwa [List.append_nil]
  · split at hstep
    · obtain ⟨⟨p', o'⟩, hplace, heq⟩ := Option.map_eq_some_iff.mp hstep
      obtain ⟨rfl, rfl⟩ := Prod.mk.inj heq
      exact h.taskToInstance hsound hplace
    · obtain ⟨rfl, rfl⟩ := Prod.mk.inj (Option.some.inj hstep)
      rwa [List.append_nil]

theorem SequentialTaskScheduler.counts_finish {s s' : SequentialTaskScheduler}
    (h : CountsVisits info out s.placement) (hsound : s.placement.Sound info out)
    (hid : id ∈ holders out tid) (hstep : finishThread info s id tid = some s') :
    CountsVisits info (out ++ [.finished id tid]) s'.placement := by
  rcases finish_cases hsound hid hstep with ⟨-, rfl⟩ | ⟨-, task, rest, -, rfl⟩
  · exact h.finishThread id tid
  · exact (h.finishThread id tid).dropInstance id

theorem GreedyTaskScheduler.counts_consider {s s' : GreedyTaskScheduler} {i : ℕ}
    (h : CountsVisits info out s.placement) (hsound : s.placement.Sound info out)
    (hstep : consider info d s i = some (s', o)) :
    CountsVisits info (out ++ o) s'.placement := by
  obtain ⟨task, status, -, -, ⟨-, rfl, rfl⟩ | ⟨-, instance_, p', hplaced, rfl, rfl⟩ |
    ⟨-, p', hnot, rfl, rfl⟩⟩ := consider_cases hsound hstep
  · rwa [List.append_nil]
  · refine hplaced.countsVisits h hsound.sized fun htraverses pid hpid => ?_
    rw [instanceBasicSetup_id]
    exact leastVisited_of_mem_getCandidateProc htraverses hpid
  · rw [List.append_nil]
    exact h.congr hnot.history_eq

theorem GreedyTaskScheduler.counts_finish {s s' : GreedyTaskScheduler}
    (h : CountsVisits info out s.placement) (hsound : s.placement.Sound info out)
    (hid : id ∈ holders out tid) (hstep : finishThread info s id tid = some s') :
    CountsVisits info (out ++ [.finished id tid]) s'.placement := by
  rcases finish_cases hsound hid hstep with ⟨-, rfl⟩ | ⟨-, idx, task, -, -, rfl⟩
  · exact h.finishThread id tid
  · exact (h.finishThread id tid).dropInstance id

theorem AutoParallelismTaskScheduler.counts_extract {s s' : AutoParallelismTaskScheduler}
    (h : CountsVisits info out s.placement) (hinv : s.placement.Inv info out)
    (hstep : extractInstances info d s = some (s', o)) :
    CountsVisits info (out ++ o) s'.placement := by
  rcases extract_cases hstep with ⟨rfl, rfl, -⟩ |
    ⟨task, rest, -, -, ⟨_, _, _, -, hissue⟩ | ⟨-, p', hplace, rfl⟩⟩
  · rwa [List.append_nil]
  · obtain ⟨policy, workers, threads, placement, -, -, rfl, rfl, -, -, hhistory⟩ :=
      issue_cases hinv hissue
    -- an `AutoParallelismTask` has threads on all processes
    exact h.issue hinv.sound.sized hhistory nofun
  · exact h.taskToInstance hinv.sound hplace

theorem AutoParallelismTaskScheduler.counts_finish {s s' : AutoParallelismTaskScheduler}
    (h : CountsVisits info out s.placement) (hsound : s.placement.Sound info out)
    (hid : id ∈ holders out tid) (hstep : finishThread info s id tid time = some s') :
    CountsVisits info (out ++ [.finished id tid]) s'.placement := by
  rcases finish_cases hsound hid hstep with ⟨-, rfl⟩ | ⟨-, task, rest, queue, policy, -, -, rfl⟩
  · exact h.finishThread id tid
  · exact (h.finishThread id tid).dropInstance id

namespace PriorityTaskScheduler

variable {m : TaskManager} {l l' : AngryLoop} {s s' : PriorityTaskScheduler} {lock : List ℕ}

theorem counts_considerAngry (h : CountsVisits info out l.placement)
    (hsound : l.placement.Sound info out)
    (hids : ∀ (i : ℕ) (task : Task), m.tasks[i]? = some task → task.id = i)
    (hstep : considerAngry info d m l id = some (l', o)) :
    CountsVisits info (out ++ o) l'.placement := by
  obtain ⟨task, p', htask, ⟨instance_, hplaced, rfl, rfl⟩ | ⟨hnot, rfl, rfl⟩⟩ :=
    considerAngry_cases hsound hids hstep
  · refine hplaced.countsVisits h hsound.sized fun htraverses pid hpid => ?_
    rw [instanceBasicSetup_id, hids id task htask]
    exact leastVisited_of_mem_getCandidateProc htraverses (List.mem_filter.mp hpid).1
  · exact h.snoc_of_none (fun _ _ => rfl) hnot.history_eq

theorem counts_considerReady (h : CountsVisits info out s.placement)
    (hsound : s.placement.Sound info out)
    (hids : ∀ (i : ℕ) (task : Task), s.taskManager.tasks[i]? = some task → task.id = i)
    (hstep : considerReady info d lock s id = some (s', o)) :
    CountsVisits info (out ++ o) s'.placement := by
  obtain ⟨task, p', m', htask, rfl, ⟨instance_, hplaced, -, rfl⟩ | ⟨hnot, -, rfl⟩⟩ :=
    considerReady_cases hsound hids hstep
  · refine hplaced.countsVisits h hsound.sized fun _ pid hpid => ?_
    rw [instanceBasicSetup_id, hids id task htask]
    exact leastVisited_of_mem_preferredProc (List.mem_filter.mp hpid).1
  · rw [List.append_nil]
    exact h.congr hnot.history_eq

theorem counts_extract {tasks₀ : List Task} (h : CountsVisits info out s.placement)
    (hinv : Inv info tasks₀ out s) (hstep : extractInstances info d s = some (s', o)) :
    CountsVisits info (out ++ o) s'.placement :=
  (hinv.extract_invariant (J := CountsVisits info) h
    (fun hl hsound _ _ hstep => counts_considerAngry hl hsound hinv.manager.ids hstep)
    (fun hs hinv _ _ _ hstep =>
      counts_considerReady hs hinv.placement.sound hinv.manager.ids hstep)
    hstep).2.1

theorem counts_finish (h : CountsVisits info out s.placement)
    (hsound : s.placement.Sound info out) (hid : id ∈ holders out tid)
    (hstep : finishThread info s id tid = some s') :
    CountsVisits info (out ++ [.finished id tid]) s'.placement := by
  rcases finish_cases hsound hid hstep with ⟨-, rfl⟩ | ⟨-, m', -, rfl⟩
  · exact h.finishThread id tid
  · exact h.finishThread id tid

end PriorityTaskScheduler

/-- **Traversal is balanced** for every task that always traverses the cluster, whatever the other
tasks are. -/
theorem traversal_balanced (info : WorkerInfo) :
    (∀ out s, Reaches (SequentialTaskScheduler.scheduler info) AnyTasks (.start info) out s →
      ∀ id, AlwaysTraverses out id → s.placement.Balanced info out id) ∧
    (∀ out s, Reaches (GreedyTaskScheduler.scheduler info) AnyTasks (.start info) out s →
      ∀ id, AlwaysTraverses out id → s.placement.Balanced info out id) ∧
    (∀ out s, Reaches (PriorityTaskScheduler.scheduler info) IndexedTasks (.start info) out s →
      ∀ id, AlwaysTraverses out id → s.placement.Balanced info out id) ∧
    (∀ out s, Reaches (AutoParallelismTaskScheduler.scheduler info) AnyTasks (.start info) out s →
      ∀ id, AlwaysTraverses out id → s.placement.Balanced info out id) := by
  have hstart := And.intro (Placement.inv_ofCluster info) (countsVisits_ofCluster info)
  refine ⟨fun out s h id => ?_, fun out s h id => ?_, fun out s h id => ?_, fun out s h id => ?_⟩
  · refine (h.invariant (I := fun out (s : SequentialTaskScheduler) =>
      s.placement.Inv info out ∧ CountsVisits info out s.placement) hstart ?_ ?_ ?_).2.balanced
    · intro out s s' tasks hs _ hstep
      refine ⟨SequentialTaskScheduler.placement_init hs.1 hstep, ?_⟩
      obtain ⟨-, rfl⟩ := SequentialTaskScheduler.init_cases hstep
      exact hs.2.submitted tasks
    · exact fun hs hstep => ⟨SequentialTaskScheduler.placement_extract hs.1 hstep,
        SequentialTaskScheduler.counts_extract hs.2 hs.1.sound hstep⟩
    · exact fun hs hid hstep => ⟨SequentialTaskScheduler.placement_finish hs.1 hid hstep,
        SequentialTaskScheduler.counts_finish hs.2 hs.1.sound hid hstep⟩
  · refine (h.invariant (I := fun out (s : GreedyTaskScheduler) =>
      s.placement.Inv info out ∧ CountsVisits info out s.placement) hstart ?_ ?_ ?_).2.balanced
    · intro out s s' tasks hs _ hstep
      refine ⟨GreedyTaskScheduler.placement_init hs.1 hstep, ?_⟩
      obtain ⟨-, rfl⟩ := GreedyTaskScheduler.init_cases hstep
      exact hs.2.submitted tasks
    · intro out s s' o d hs hstep
      exact run_along (I := fun out s => s.placement.Inv info out ∧
          CountsVisits info out s.placement)
        (fun hs _ hstep => ⟨GreedyTaskScheduler.placement_consider hs.1 hstep,
          GreedyTaskScheduler.counts_consider hs.2 hs.1.sound hstep⟩) hs
        (along_of_forall (P := fun _ => True) (fun _ _ => trivial) out s) hstep
    · exact fun hs hid hstep => ⟨GreedyTaskScheduler.placement_finish hs.1 hid hstep,
        GreedyTaskScheduler.counts_finish hs.2 hs.1.sound hid hstep⟩
  · obtain ⟨tasks₀, -, hs⟩ := h.invariant
      (I := fun out s => ∃ tasks₀, PriorityTaskScheduler.Inv info tasks₀ out s ∧
        CountsVisits info out s.placement)
      ⟨[], PriorityTaskScheduler.inv_start info, hstart.2⟩
      (fun {out s s' tasks} ⟨tasks₀, hs, hcounts⟩ hids hstep => by
        obtain rfl := Option.some.inj hstep
        exact ⟨tasks₀ ++ tasks, hs.init (hs.length ▸ hids), hcounts.submitted tasks⟩)
      (fun ⟨tasks₀, hs, hcounts⟩ hstep => ⟨tasks₀, hs.extract hstep,
        PriorityTaskScheduler.counts_extract hcounts hs hstep⟩)
      (fun ⟨tasks₀, hs, hcounts⟩ hid hstep => ⟨tasks₀, hs.finish hid hstep,
        PriorityTaskScheduler.counts_finish hcounts hs.placement.sound hid hstep⟩)
    exact hs.balanced
  · refine (h.invariant (I := fun out (s : AutoParallelismTaskScheduler) =>
      s.placement.Inv info out ∧ CountsVisits info out s.placement) hstart ?_ ?_ ?_).2.balanced
    · intro out s s' tasks hs _ hstep
      refine ⟨AutoParallelismTaskScheduler.placement_init hs.1 hstep, ?_⟩
      obtain ⟨task, -, hstep⟩ := Option.bind_eq_some_iff.mp hstep
      obtain ⟨policy, -, hstep⟩ := Option.bind_eq_some_iff.mp hstep
      obtain rfl := Option.some.inj hstep
      exact hs.2.submitted tasks
    · exact fun hs hstep => ⟨AutoParallelismTaskScheduler.placement_extract hs.1 hstep,
        AutoParallelismTaskScheduler.counts_extract hs.2 hs.1 hstep⟩
    · exact fun hs hid hstep => ⟨AutoParallelismTaskScheduler.placement_finish hs.1 hid hstep,
        AutoParallelismTaskScheduler.counts_finish hs.2 hs.1.sound hid hstep⟩

/-- A local task of three epochs. -/
def localTask : Task := ⟨0, 3, 0, 1, .basic, true⟩

/-- Two of its epochs are issued. -/
def localTaskInputs : List SchedInput :=
  [.initTasks [localTask], .extractInstances .plain, .finishThread 0 0 5, .extractInstances .plain]

/-- What is seen of that. -/
def localTaskHistory : List SchedEvent :=
  [.submitted [localTask], .issued ⟨localTask, [(0, 0)]⟩, .finished 0 0,
    .issued ⟨localTask.incEpoch, [(1, 1)]⟩]

/-- The first epoch runs on one of two processes, and the second on the other. -/
theorem traversal_balanced_localTask :
    (∃ s : SequentialTaskScheduler, s.placement.Balanced (.oneEach 2) localTaskHistory 0) ∧
    (∃ s : GreedyTaskScheduler, s.placement.Balanced (.oneEach 2) localTaskHistory 0) ∧
    (∃ s : PriorityTaskScheduler, s.placement.Balanced (.oneEach 2) localTaskHistory 0) ∧
    (∃ s : AutoParallelismTaskScheduler,
      s.placement.Balanced (.oneEach 2) localTaskHistory 0) := by
  obtain ⟨hseq, hgreedy, hpriority, hauto⟩ := traversal_balanced (.oneEach 2)
  have halways : AlwaysTraverses localTaskHistory 0 := by
    rintro instance_ (_ | ⟨_, _ | ⟨_, _ | ⟨_, _ | ⟨_, hmem⟩⟩⟩⟩) -
    · rfl
    · rfl
    · cases hmem
  refine ⟨?_, ?_, ?_, ?_⟩
  · have hrun : run (schedStep (SequentialTaskScheduler.scheduler (.oneEach 2))) (.start (.oneEach 2))
        localTaskInputs = some (_, localTaskHistory) := rfl
    refine ⟨_, hseq _ _ ⟨_, ?_, hrun⟩ 0 halways⟩
    apply along_cons rfl ⟨trivial, fun _ _ => trivial⟩
    apply along_cons rfl ⟨trivial, fun _ _ => trivial⟩
    apply along_cons rfl ⟨by decide, fun _ _ => trivial⟩
    apply along_cons rfl ⟨trivial, fun _ _ => trivial⟩
    trivial
  · have hrun : run (schedStep (GreedyTaskScheduler.scheduler (.oneEach 2))) (.start (.oneEach 2))
        localTaskInputs = some (_, localTaskHistory) := rfl
    refine ⟨_, hgreedy _ _ ⟨_, ?_, hrun⟩ 0 halways⟩
    apply along_cons rfl ⟨trivial, fun _ _ => trivial⟩
    apply along_cons rfl ⟨trivial, fun _ _ => trivial⟩
    apply along_cons rfl ⟨by decide, fun _ _ => trivial⟩
    apply along_cons rfl ⟨trivial, fun _ _ => trivial⟩
    trivial
  · have hrun : run (schedStep (PriorityTaskScheduler.scheduler (.oneEach 2))) (.start (.oneEach 2))
        localTaskInputs = some (_, localTaskHistory) := rfl
    have hindexed : ∀ tasks, SchedInput.initTasks [localTask] = .initTasks tasks →
        IndexedTasks [] (.start (.oneEach 2)) tasks := by
      rintro _ ⟨⟩ (_ | i) task htask
      · obtain rfl := Option.some.inj htask
        rfl
      · cases htask
    refine ⟨_, hpriority _ _ ⟨_, ?_, hrun⟩ 0 halways⟩
    apply along_cons rfl ⟨trivial, hindexed⟩
    apply along_cons rfl ⟨trivial, nofun⟩
    apply along_cons rfl ⟨by decide, nofun⟩
    apply along_cons rfl ⟨trivial, nofun⟩
    trivial
  · have hrun : run (schedStep (AutoParallelismTaskScheduler.scheduler (.oneEach 2)))
        (.start (.oneEach 2)) localTaskInputs = some (_, localTaskHistory) := rfl
    refine ⟨_, hauto _ _ ⟨_, ?_, hrun⟩ 0 halways⟩
    apply along_cons rfl ⟨trivial, fun _ _ => trivial⟩
    apply along_cons rfl ⟨trivial, fun _ _ => trivial⟩
    apply along_cons rfl ⟨by decide, fun _ _ => trivial⟩
    apply along_cons rfl ⟨trivial, fun _ _ => trivial⟩
    trivial

/-- Tasks of the same priority are considered in the reverse order. -/
def Draw.reversed : Draw :=
  { Draw.plain with tiesOrder := List.reverse, ties_perm := List.reverse_perm }

/-- A task that traverses the cluster, at position `0`. -/
def traversingTask : Task :=
  ⟨1, 5, 0, 1, .configurableWorkers [1] ["threads_traverse_cluster"], false⟩

/-- Another task, which needs both threads, at position `1`. -/
def spreadTask : Task := ⟨0, 5, 0, 2, .basic, false⟩

/-- **The ids of the tasks have to be positions**: the visits of the task `1` at position `0` are
written to the history of the task `0`, and it is placed on the same of two processes twice. -/
theorem priority_visits_twice :
    ¬ ∀ info out s, Reaches (PriorityTaskScheduler.scheduler info) AnyTasks (.start info) out s →
      ∀ id, AlwaysTraverses out id → s.placement.Balanced info out id := by
  intro h
  have hrun : run (schedStep (PriorityTaskScheduler.scheduler (.oneEach 2))) (.start (.oneEach 2))
      [.initTasks [traversingTask, spreadTask], .extractInstances .reversed, .finishThread 1 0 0,
        .extractInstances .reversed, .finishThread 0 0 0, .finishThread 0 1 0,
        .extractInstances .reversed] =
      some (_, [.submitted [traversingTask, spreadTask], .issued ⟨traversingTask, [(0, 0)]⟩,
        .finished 1 0, .issued ⟨spreadTask.incEpoch, [(0, 0), (1, 1)]⟩, .finished 0 0,
        .finished 0 1, .issued ⟨traversingTask.incEpoch.incEpoch, [(0, 0)]⟩]) := rfl
  have hbalanced := h (.oneEach 2) _ _ ⟨_, ?_, hrun⟩ 1 ?_
  · have heven := hbalanced.even _ (List.prefix_refl _) 0 (by decide) 1 (by decide)
    exact absurd heven (by decide)
  · apply along_cons rfl ⟨trivial, fun _ _ => trivial⟩
    apply along_cons rfl ⟨trivial, fun _ _ => trivial⟩
    apply along_cons rfl ⟨by decide, fun _ _ => trivial⟩
    apply along_cons rfl ⟨trivial, fun _ _ => trivial⟩
    apply along_cons rfl ⟨by decide, fun _ _ => trivial⟩
    apply along_cons rfl ⟨by decide, fun _ _ => trivial⟩
    apply along_cons rfl ⟨trivial, fun _ _ => trivial⟩
    trivial
  · intro instance_ hmem hid
    simp only [List.mem_cons, List.not_mem_nil, or_false, reduceCtorEq, false_or,
      SchedEvent.issued.injEq] at hmem
    rcases hmem with rfl | rfl | rfl
    · decide
    · cases hid
    · decide

end Schedulers

end FlexPS.Scheduler
