import FlexPS.Scheduler.Exclusive
import FlexPS.Worker.MainLoop

/-!
# Where the threads of an instance are

A thread that the cluster manager has given to an instance is in one place: in a message to its
worker, on its unit, or in a message to the cluster manager.  A worker keeps the instances whose
threads it has on its units.

## Main definitions

* `Booked` — the threads on the way to a worker, on its units and on the way back are those that the
  cluster manager takes to be running on the process.
* `Booked.receive`, `Booked.report`, `Booked.announce`, `Booked.finish` — what messages do to it.
* `Runs` — the worker keeps the instances whose threads are on its units.
* `Runs.run`, `Runs.finish`, `Runs.look`, `Runs.remove` — what the worker does to it.
-/

namespace FlexPS.Worker

open Lib Scheduler

/-- The threads of a process that a message gives to an instance. -/
def WorkerMessage.bookings (pid : ℕ) : WorkerMessage → List (ℕ × ℕ)
  | task instance_ => (instance_.localTids pid).map (instance_.id, ·)
  | finished => []

/-- The thread that a message reports. -/
def reported : ClusterMessage → Option (ℕ × ℕ)
  | .threadFinished instanceId tid _ => some (instanceId, tid)
  | _ => none

/-- What an instance has to be for its threads to be found. -/
def WellPlaced (info : WorkerInfo) (instance_ : Instance) : Prop :=
  instance_.tids.Nodup ∧
    ∀ th ∈ instance_.threads, th.1 = info.processId th.2 ∧ th.2 ∈ info.globalTids

/-- The threads of a process, each with its instance, are on the way to the worker, on its units, or
on the way to the cluster manager; and when an instance is on the way, its id is neither ahead of it
nor on the units. -/
structure Booked (info : WorkerInfo) (out : List SchedEvent) (pid : ℕ) (inbox : List WorkerMessage)
    (assigned reports : List (ℕ × ℕ)) : Prop where
  count : ∀ id tid,
    (inbox.flatMap (WorkerMessage.bookings pid) ++ assigned ++ reports).count (id, tid) =
      if info.processId tid = pid then (holders out tid).count id else 0
  ahead : ∀ before instance_ after, inbox = before ++ .task instance_ :: after →
    ∀ b ∈ before.flatMap (WorkerMessage.bookings pid) ++ assigned, b.1 ≠ instance_.id
  placed : ∀ instance_, .task instance_ ∈ inbox → WellPlaced info instance_

section Booked

variable {info : WorkerInfo} {out : List SchedEvent} {pid id tid : ℕ} {inbox : List WorkerMessage}
  {assigned assigned' reports : List (ℕ × ℕ)} {b : ℕ × ℕ} {instance_ : Instance}

theorem booked_nil (info : WorkerInfo) (pid : ℕ) : Booked info [] pid [] [] [] where
  count id tid := by
    split
    · rfl
    · rfl
  ahead before instance_ after heq := by simp at heq
  placed _ hmem := absurd hmem List.not_mem_nil

/-- What is booked runs, on the process. -/
theorem Booked.mem_holders (h : Booked info out pid inbox assigned reports)
    (hb : b ∈ inbox.flatMap (WorkerMessage.bookings pid) ++ assigned ++ reports) :
    info.processId b.2 = pid ∧ b.1 ∈ holders out b.2 := by
  have hpos := List.count_pos_iff.mpr hb
  rw [h.count b.1 b.2] at hpos
  split at hpos
  · next hpid => exact ⟨hpid, List.count_pos_iff.mp hpos⟩
  · exact absurd hpos (lt_irrefl 0)

/-- Nothing that is assigned has the id of the next instance. -/
theorem Booked.ne_of_assigned (h : Booked info out pid (.task instance_ :: inbox) assigned reports)
    (hb : b ∈ assigned) : b.1 ≠ instance_.id :=
  h.ahead [] instance_ inbox rfl b hb

/-- **The units of the next instance are not in use.** -/
theorem Booked.free (h : Booked info out pid (.task instance_ :: inbox) assigned reports)
    (hone : ∀ tid, (holders out tid).length ≤ 1) (htid : tid ∈ instance_.localTids pid)
    (hb : b ∈ assigned) : b.2 ≠ tid := by
  rintro rfl
  have hassigned := (h.mem_holders (List.mem_append_left _ (List.mem_append_right _ hb))).2
  have hnext : (instance_.id, b.2) ∈ (WorkerMessage.task instance_ :: inbox).flatMap
      (WorkerMessage.bookings pid) ++ assigned ++ reports := by
    refine List.mem_append_left _ (List.mem_append_left _ ?_)
    exact List.mem_flatMap.mpr ⟨_, List.mem_cons_self .., List.mem_map_of_mem htid⟩
  have hbooked := (h.mem_holders hnext).2
  have hsame := Ledger.eq_singleton_of_mem (hone b.2) hbooked
  rw [hsame] at hassigned
  exact h.ne_of_assigned hb (List.mem_singleton.mp hassigned)

/-- The order of the units does not matter. -/
theorem Booked.perm (h : Booked info out pid inbox assigned reports)
    (hperm : assigned'.Perm assigned) : Booked info out pid inbox assigned' reports where
  count id tid := by
    rw [← h.count]
    exact ((hperm.append_left _).append_right _).count_eq _
  ahead before instance_ after heq b hb := by
    refine h.ahead before instance_ after heq b ?_
    exact (hperm.append_left _).mem_iff.mp hb
  placed := h.placed

/-- **An instance arrives.** -/
theorem Booked.receive (h : Booked info out pid (.task instance_ :: inbox) assigned reports) :
    Booked info out pid inbox
      (assigned ++ (WorkerMessage.task instance_).bookings pid) reports where
  count id tid := by
    rw [← h.count, List.flatMap_cons]
    refine List.Perm.count_eq (.append_right _ ?_) _
    rw [← List.append_assoc]
    exact List.perm_append_comm.trans (by rw [List.append_assoc])
  ahead before instance' after heq b hb := by
    refine h.ahead (.task instance_ :: before) instance' after (by rw [heq, List.cons_append]) b ?_
    rw [List.flatMap_cons]
    simp only [List.mem_append] at hb ⊢
    tauto
  placed instance' hmem := h.placed instance' (List.mem_cons_of_mem _ hmem)

/-- The worker is told that all tasks have finished. -/
theorem Booked.receiveFinished (h : Booked info out pid (.finished :: inbox) assigned reports) :
    Booked info out pid inbox assigned reports where
  count := h.count
  ahead before instance' after heq :=
    h.ahead (.finished :: before) instance' after (by rw [heq, List.cons_append])
  placed instance' hmem := h.placed instance' (List.mem_cons_of_mem _ hmem)

/-- **A thread is reported.** -/
theorem Booked.report (h : Booked info out pid inbox (b :: assigned) reports) :
    Booked info out pid inbox assigned (reports ++ [b]) where
  count id tid := by
    rw [← h.count]
    simp only [List.count_append, List.count_cons, List.count_nil]
    omega
  ahead before instance_ after heq b' hb' := by
    refine h.ahead before instance_ after heq b' ?_
    simp only [List.mem_append, List.mem_cons] at hb' ⊢
    tauto
  placed := h.placed

theorem Booked.snoc_of_none (h : Booked info out pid inbox assigned reports) {e : SchedEvent}
    (he : e.entry = none) : Booked info (out ++ [e]) pid inbox assigned reports where
  count id tid := by
    rw [h.count, holders_snoc_of_none he]
  ahead := h.ahead
  placed := h.placed

/-- The worker will be told that all tasks have finished. -/
theorem Booked.exit (h : Booked info out pid inbox assigned reports) :
    Booked info out pid (inbox ++ [.finished]) assigned reports where
  count id tid := by
    rw [← h.count, List.flatMap_append]
    exact congrArg (fun l => List.count _ (l ++ assigned ++ reports)) (List.append_nil _)
  ahead before instance_ after heq := by
    rcases List.eq_nil_or_concat after with rfl | ⟨after, m, rfl⟩
    · cases (List.append_inj' heq rfl).2
    · rw [List.concat_eq_append, ← List.cons_append, ← List.append_assoc] at heq
      exact h.ahead before instance_ after (List.append_inj' heq rfl).1
  placed instance_ hmem := by
    rcases List.mem_append.mp hmem with hmem | hmem
    · exact h.placed instance_ hmem
    · cases List.mem_singleton.mp hmem

theorem wellPlaced_of_fresh (h : FreshIssue info out (.issued instance_)) :
    WellPlaced info instance_ := by
  obtain ⟨-, hnodup, hthreads⟩ := h.1 instance_ rfl
  exact ⟨hnodup, fun th hth => ⟨(hthreads th hth).1, (hthreads th hth).2.1⟩⟩

theorem WellPlaced.mem_localTids (h : WellPlaced info instance_) :
    tid ∈ instance_.localTids pid ↔ tid ∈ instance_.tids ∧ info.processId tid = pid := by
  rw [Instance.mem_localTids, Instance.tids, List.mem_map]
  constructor
  · exact fun hth => ⟨⟨_, hth, rfl⟩, (h.2 _ hth).1.symm⟩
  · rintro ⟨⟨⟨pid', tid'⟩, hth, rfl⟩, rfl⟩
    rw [← (h.2 _ hth).1]
    exact hth

/-- A message books every thread of the instance once. -/
theorem WellPlaced.count_bookings (h : WellPlaced info instance_) (pid id tid : ℕ) :
    ((WorkerMessage.task instance_).bookings pid).count (id, tid) =
      if id = instance_.id ∧ tid ∈ instance_.tids ∧ info.processId tid = pid then 1 else 0 := by
  have hnodup : ((WorkerMessage.task instance_).bookings pid).Nodup :=
    (Instance.nodup_localTids h.1 pid).map fun _ _ heq => (Prod.mk.inj heq).2
  rw [hnodup.count]
  refine if_congr ?_ rfl rfl
  rw [WorkerMessage.bookings, List.mem_map, ← h.mem_localTids]
  constructor
  · rintro ⟨tid', htid', heq⟩
    obtain ⟨rfl, rfl⟩ := Prod.mk.inj heq
    exact ⟨rfl, htid'⟩
  · rintro ⟨rfl, htid⟩
    exact ⟨tid, htid, rfl⟩

/-- **An instance is issued**, and sent to the worker. -/
theorem Booked.issue (h : Booked info out pid inbox assigned reports)
    (hfresh : FreshIssue info out (.issued instance_)) :
    Booked info (out ++ [.issued instance_]) pid (inbox ++ [.task instance_]) assigned reports where
  count id tid := by
    have hplaced := wellPlaced_of_fresh hfresh
    have hold := h.count id tid
    have hnew := hplaced.count_bookings pid id tid
    simp only [List.flatMap_append, List.flatMap_cons, List.flatMap_nil, List.append_nil,
      List.count_append] at hold ⊢
    rw [hnew, holders_issued]
    by_cases htid : tid ∈ instance_.tids
    · by_cases hpid : info.processId tid = pid
      · rw [if_pos hpid] at hold ⊢
        rw [if_pos htid, List.count_cons]
        by_cases hid : id = instance_.id
        · subst hid
          simp only [htid, hpid, and_self, if_true, beq_self_eq_true]
          omega
        · have hne : (instance_.id == id) = false := beq_false_of_ne (Ne.symm hid)
          simp only [hid, hne, false_and, if_false, Bool.false_eq_true]
          omega
      · simp only [hpid, and_false, if_false] at hold ⊢
        omega
    · simp only [htid, false_and, and_false, if_false] at hold ⊢
      omega
  ahead before instance' after heq b hb := by
    rcases List.eq_nil_or_concat after with rfl | ⟨after, m, rfl⟩
    · obtain ⟨rfl, hlast⟩ := List.append_inj' heq rfl
      obtain rfl := WorkerMessage.task.inj (List.cons.inj hlast).1
      intro hid
      refine hfresh.2 _ rfl ⟨b.2, ?_⟩
      rw [← hid]
      exact (h.mem_holders (List.mem_append_left _ hb)).2
    · rw [List.concat_eq_append, ← List.cons_append, ← List.append_assoc] at heq
      exact h.ahead before instance' after (List.append_inj' heq rfl).1 b hb
  placed instance' hmem := by
    rcases List.mem_append.mp hmem with hmem | hmem
    · exact h.placed instance' hmem
    · obtain rfl := WorkerMessage.task.inj (List.mem_singleton.mp hmem)
      exact wellPlaced_of_fresh hfresh

/-- **The cluster manager announces** what its scheduler has done. -/
theorem Booked.announce (h : Booked info out pid inbox assigned reports) {e : SchedEvent}
    (hfresh : FreshIssue info out e) (hnot : ∀ id tid, e ≠ .finished id tid) :
    Booked info (out ++ [e]) pid (inbox ++ (workerMessage (.scheduled e)).toList) assigned
      reports := by
  cases e with
  | issued instance_ => exact h.issue hfresh
  | finished id tid => exact absurd rfl (hnot id tid)
  | _ =>
      simp only [workerMessage, Option.toList_none, List.append_nil]
      exact h.snoc_of_none rfl

/-- **A thread of the process finishes** in the eyes of the cluster manager. -/
theorem Booked.finish (h : Booked info out pid inbox assigned ((id, tid) :: reports)) :
    Booked info (out ++ [.finished id tid]) pid inbox assigned reports where
  count id' tid' := by
    have hold := h.count id' tid'
    have hpid : info.processId tid = pid :=
      (h.mem_holders (List.mem_append_right _ (List.mem_cons_self ..))).1
    rw [holders_finished]
    simp only [List.count_append, List.count_cons] at hold ⊢
    by_cases htid : tid = tid'
    · subst htid
      rw [if_pos hpid] at hold ⊢
      rw [if_pos rfl, List.count_erase]
      by_cases hid : id = id'
      · subst hid
        simp only [beq_self_eq_true, if_true] at hold ⊢
        omega
      · have hne : ((id, tid) == (id', tid)) = false :=
          beq_false_of_ne fun heq => hid (Prod.mk.inj heq).1
        have hne' : (id == id') = false := beq_false_of_ne hid
        simp only [hne, hne', Bool.false_eq_true, if_false] at hold ⊢
        omega
    · have hne : ((id, tid) == (id', tid')) = false :=
        beq_false_of_ne fun heq => htid (Prod.mk.inj heq).2
      rw [if_neg htid]
      simp only [hne, Bool.false_eq_true, if_false, add_zero] at hold
      rw [← hold]
  ahead := h.ahead
  placed := h.placed

/-- A thread of another process finishes. -/
theorem Booked.finish_other (h : Booked info out pid inbox assigned reports)
    (hpid : info.processId tid ≠ pid) :
    Booked info (out ++ [.finished id tid]) pid inbox assigned reports where
  count id' tid' := by
    rw [h.count, holders_finished]
    by_cases htid : tid = tid'
    · subst htid
      rw [if_neg hpid, if_neg hpid]
    · rw [if_neg htid]
  ahead := h.ahead
  placed := h.placed

end Booked

/-! ## The units -/

/-- The worker knows the threads on its units, by instance and local id: their units are joinable and
no others, the keeper has them, and no other instance is kept, unless it is about to be removed. -/
structure Runs (r : InstanceRunner) (phase : Phase) (used : List (ℕ × ℕ)) : Prop where
  once : (used.map Prod.snd).Nodup
  joinable : ∀ tid, r.units tid = true ↔ ∃ id, (id, tid) ∈ used
  keeper : ∀ id tid, tid ∈ r.instanceKeeper.getD id [] ↔ (id, tid) ∈ used
  keeper_nodup : ∀ id, (r.instanceKeeper.getD id []).Nodup
  kept : ∀ id, id ∈ r.instances ∨ id ∈ r.instanceKeeper →
    (∃ tid, (id, tid) ∈ used) ∨ phase = .removing id

section Runs

variable {info : WorkerInfo} {ids : LocalIds info} {pid id : ℕ} {r r' : InstanceRunner}
  {phase phase' : Phase} {used used' started : List (ℕ × ℕ)} {th : ℕ × ℕ} {instance_ : Instance}

theorem runs_start (phase : Phase) : Runs .start phase [] where
  once := List.nodup_nil
  joinable _ := iff_of_false Bool.false_ne_true fun ⟨_, hmem⟩ => absurd hmem List.not_mem_nil
  keeper _ _ := iff_of_false List.not_mem_nil List.not_mem_nil
  keeper_nodup _ := List.nodup_nil
  kept id hid := hid.elim (fun hmem => absurd hmem (AList.notMem_empty id))
    fun hmem => absurd hmem (AList.notMem_empty id)

theorem Runs.perm (h : Runs r phase used) (hperm : used'.Perm used) : Runs r phase used' where
  once := (hperm.map Prod.snd).nodup_iff.mpr h.once
  joinable tid := (h.joinable tid).trans (exists_congr fun _ => hperm.mem_iff.symm)
  keeper id tid := (h.keeper id tid).trans hperm.mem_iff.symm
  keeper_nodup := h.keeper_nodup
  kept id hid := (h.kept id hid).imp_left fun ⟨tid, htid⟩ => ⟨tid, hperm.mem_iff.mpr htid⟩

/-- Only a worker that is about to remove an instance may keep too many. -/
theorem Runs.ofPhase (h : Runs r phase used) (hphase : ∀ id, phase ≠ .removing id) :
    Runs r phase' used where
  once := h.once
  joinable := h.joinable
  keeper := h.keeper
  keeper_nodup := h.keeper_nodup
  kept id hid := .inl ((h.kept id hid).resolve_right (hphase id))

/-- **An instance is run**, when nothing of it is on the units and its units are free. -/
theorem Runs.run (h : Runs r .waiting used) (hnot : ∀ tid, (instance_.id, tid) ∉ used)
    (hnodup : ((instance_.localTids pid).map ids.globalToLocalId).Nodup)
    (hfree : ∀ tid ∈ (instance_.localTids pid).map ids.globalToLocalId, r.units tid = false)
    (hrun : r.runInstance ids pid instance_ = some (r', started)) :
    Runs r' .waiting (used ++ started) := by
  rcases InstanceRunner.runInstance_cases hrun with ⟨-, rfl, rfl⟩ |
    ⟨units, hunits, hne, rfl, rfl⟩
  · rwa [List.append_nil]
  set tids := (instance_.localTids pid).map ids.globalToLocalId with htids
  have hkeeper : instance_.id ∉ r.instanceKeeper := by
    intro hmem
    rcases h.kept instance_.id (.inr hmem) with ⟨tid, htid⟩ | hphase
    · exact hnot tid htid
    · cases hphase
  have hstarted : ∀ id tid, (id, tid) ∈ tids.map (instance_.id, ·) ↔
      id = instance_.id ∧ tid ∈ tids := by
    intro id tid
    rw [List.mem_map]
    constructor
    · rintro ⟨tid', htid', heq⟩
      obtain ⟨rfl, rfl⟩ := Prod.mk.inj heq
      exact ⟨rfl, htid'⟩
    · rintro ⟨rfl, htid⟩
      exact ⟨tid, htid, rfl⟩
  rw [if_neg hkeeper]
  refine ⟨?_, fun tid => ?_, fun id tid => ?_, fun id => ?_, fun id hid => ?_⟩
  · have hsnd : (tids.map (instance_.id, ·)).map Prod.snd = tids := by
      rw [List.map_map]
      exact List.map_id _
    rw [List.map_append, hsnd]
    refine List.nodup_append.mpr ⟨h.once, hnodup, ?_⟩
    rintro tid hmem _ htid rfl
    obtain ⟨⟨id, _⟩, hused, rfl⟩ := List.mem_map.mp hmem
    have hunit := (h.joinable _).mpr ⟨id, hused⟩
    rw [hfree _ htid] at hunit
    cases hunit
  · rw [InstanceRunner.assignWorkers_units hunits tid, InstanceRunner.map_extractLocalInstance,
      h.joinable tid]
    constructor
    · rintro (htid | ⟨id, hused⟩)
      · exact ⟨_, List.mem_append_right _ ((hstarted _ _).mpr ⟨rfl, htid⟩)⟩
      · exact ⟨id, List.mem_append_left _ hused⟩
    · rintro ⟨id, hmem⟩
      rcases List.mem_append.mp hmem with hused | hstart
      · exact .inr ⟨id, hused⟩
      · exact .inl ((hstarted id tid).mp hstart).2
  · rw [List.mem_append, hstarted]
    by_cases hid : id = instance_.id
    · subst hid
      rw [Dict.getD_set_self, List.mem_dedup]
      exact ⟨fun htid => .inr ⟨rfl, htid⟩, fun hcases => hcases.elim
        (fun hused => absurd hused (hnot tid)) fun hstart => hstart.2⟩
    · rw [Dict.getD_set_of_ne _ hid, h.keeper]
      exact (or_iff_left fun hstart => hid hstart.1).symm
  · by_cases hid : id = instance_.id
    · subst hid
      rw [Dict.getD_set_self]
      exact List.nodup_dedup _
    · rw [Dict.getD_set_of_ne _ hid]
      exact h.keeper_nodup id
  · by_cases heq : id = instance_.id
    · subst heq
      obtain ⟨tid, htid⟩ := List.exists_mem_of_ne_nil _ hne
      exact .inl ⟨_, List.mem_append_right _
        ((hstarted _ _).mpr ⟨rfl, List.mem_map_of_mem (f := ids.globalToLocalId) htid⟩)⟩
    · have hold : id ∈ r.instances ∨ id ∈ r.instanceKeeper :=
        hid.imp (fun hmem => ((Dict.mem_set _ _ _ _).mp hmem).resolve_left heq)
          fun hmem => ((Dict.mem_set _ _ _ _).mp hmem).resolve_left heq
      exact (h.kept id hold).imp_left fun ⟨tid, htid⟩ => ⟨tid, List.mem_append_left _ htid⟩

/-- **A thread is joined**; its instance may have no other. -/
theorem Runs.finish (h : Runs r .waiting (th :: used)) (hstep : r.finishThread th.1 th.2 = some r') :
    Runs r' (.removing th.1) used := by
  obtain ⟨hnew, honce⟩ := List.nodup_cons.mp h.once
  have hother : ∀ {th'}, th' ≠ th → (th' ∈ th :: used ↔ th' ∈ used) :=
    fun hne => List.mem_cons.trans (or_iff_right hne)
  unfold InstanceRunner.finishThread at hstep
  simp only at hstep
  split at hstep
  · obtain rfl := Option.some.inj hstep
    refine ⟨honce, fun tid => ?_, fun id tid => ?_, fun id => ?_, fun id hid => ?_⟩
    · simp only [Function.update_apply]
      split
      · next heq =>
          refine iff_of_false Bool.false_ne_true ?_
          rintro ⟨id, hused⟩
          exact hnew (heq ▸ List.mem_map_of_mem hused)
      · next hne =>
          rw [h.joinable]
          exact exists_congr fun id => hother fun heq => hne (congrArg Prod.snd heq)
    · by_cases hid : id = th.1
      · subst hid
        rw [Dict.getD_set_self, (h.keeper_nodup _).mem_erase_iff, h.keeper]
        constructor
        · exact fun hmem => (hother fun heq => hmem.1 (congrArg Prod.snd heq)).mp hmem.2
        · refine fun hmem => ⟨?_, List.mem_cons_of_mem _ hmem⟩
          rintro rfl
          exact hnew (List.mem_map_of_mem hmem)
      · rw [Dict.getD_set_of_ne _ hid, h.keeper]
        exact hother fun heq => hid (congrArg Prod.fst heq)
    · by_cases hid : id = th.1
      · subst hid
        rw [Dict.getD_set_self]
        exact (h.keeper_nodup _).erase _
      · rw [Dict.getD_set_of_ne _ hid]
        exact h.keeper_nodup id
    · by_cases heq : id = th.1
      · exact .inr (heq ▸ rfl)
      · have hold : id ∈ r.instances ∨ id ∈ r.instanceKeeper :=
          hid.imp_right fun hmem => ((Dict.mem_set _ _ _ _).mp hmem).resolve_left heq
        rcases h.kept id hold with ⟨tid, htid⟩ | hphase
        · exact .inl ⟨tid, (hother fun h => heq (congrArg Prod.fst h)).mp htid⟩
        · cases hphase
  · cases hstep

/-- **The worker looks whether the instance is done**, and keeps it when it has threads left. -/
theorem Runs.look (h : Runs r (.removing id) used) :
    Runs (r.isInstanceDone id).1 (.removing id) used := by
  have hgetD : ∀ id', (r.isInstanceDone id).1.instanceKeeper.getD id' [] =
      r.instanceKeeper.getD id' [] := by
    intro id'
    simp only [InstanceRunner.isInstanceDone]
    by_cases heq : id' = id
    · rw [heq, Dict.getD_set_self]
    · rw [Dict.getD_set_of_ne _ heq]
  refine ⟨h.once, h.joinable, fun id' tid => ?_, fun id' => ?_, fun id' hid' => ?_⟩
  · rw [hgetD, h.keeper]
  · rw [hgetD]
    exact h.keeper_nodup id'
  · by_cases heq : id' = id
    · exact .inr (heq ▸ rfl)
    · exact h.kept id'
        (hid'.imp_right fun hmem => ((Dict.mem_set _ _ _ _).mp hmem).resolve_left heq)

/-- **The instance is removed**, when it has no thread left. -/
theorem Runs.remove (h : Runs r (.removing id) used) (hstep : r.removeInstance id = some r') :
    Runs r' .waiting used := by
  unfold InstanceRunner.removeInstance at hstep
  split at hstep
  · next hempty =>
      obtain rfl := Option.some.inj hstep
      have hnone : r.instanceKeeper.getD id [] = [] := List.isEmpty_iff.mp hempty
      refine ⟨h.once, h.joinable, fun id' tid => ?_, fun id' => ?_, fun id' hid' => .inl ?_⟩
      · by_cases heq : id' = id
        · rw [← h.keeper, heq, Dict.getD_drop_self, hnone]
        · rw [Dict.getD_drop_of_ne _ heq, h.keeper]
      · by_cases heq : id' = id
        · rw [heq, Dict.getD_drop_self]
          exact List.nodup_nil
        · rw [Dict.getD_drop_of_ne _ heq]
          exact h.keeper_nodup id'
      · have hold : id' ≠ id ∧ (id' ∈ r.instances ∨ id' ∈ r.instanceKeeper) := by
          rcases hid' with hmem | hmem
          · exact ⟨((Dict.mem_drop _ _ _).mp hmem).1, .inl ((Dict.mem_drop _ _ _).mp hmem).2⟩
          · exact ⟨((Dict.mem_drop _ _ _).mp hmem).1, .inr ((Dict.mem_drop _ _ _).mp hmem).2⟩
        refine (h.kept id' hold.2).resolve_right fun hphase => hold.1 ?_
        exact (Phase.removing.inj hphase).symm
  · cases hstep

/-- The instance has threads left. -/
theorem Runs.keep (h : Runs r (.removing id) used) (hleft : r.instanceKeeper.getD id [] ≠ []) :
    Runs r .waiting used := by
  refine ⟨h.once, h.joinable, h.keeper, h.keeper_nodup, fun id' hid' => .inl ?_⟩
  rcases h.kept id' hid' with hused | hphase
  · exact hused
  · obtain rfl := Phase.removing.inj hphase
    obtain ⟨tid, htid⟩ := List.exists_mem_of_ne_nil _ hleft
    exact ⟨tid, (h.keeper id tid).mp htid⟩

end Runs

end FlexPS.Worker
