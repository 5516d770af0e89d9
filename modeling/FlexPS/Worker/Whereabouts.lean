import FlexPS.Scheduler.Continuing
import FlexPS.Worker.ModelTransfer
import FlexPS.Worker.Sessions

/-!
# Where a model is

While no leader has the model of a task, it is in one place: in a store, where it waits for the next
epoch or for a message about its transfer, or in the mailbox of the leader that is going to load it.

## Main definitions

* `Spot` — the places.
* `Left`, `Owed` — what the last instance has left behind, and what the next leader is owed.
* `Situation` — where the last instance of a task is, and where its model is.
* `Situation.issue`, `Situation.receive`, `Situation.complete` — what the cluster manager and the
  processes do to it.
-/

namespace FlexPS.Scheduler

open Lib

/-- The leader of an instance all of whose threads are on one process. -/
theorem Instance.leader_some {instance_ : Instance} {pid : ℕ} (hne : instance_.threads ≠ [])
    (hone : ∀ th ∈ instance_.threads, th.1 = pid) :
    ∃ tid rest, instance_.leader = some (pid, tid) ∧ instance_.getThreads pid = (tid, 0) :: rest := by
  obtain ⟨th, ths, hthreads⟩ := List.exists_cons_of_ne_nil hne
  have hth : th.1 = pid := hone th (hthreads ▸ List.mem_cons_self ..)
  have hpids : (instance_.threads.map Prod.fst).dedup = [pid] := by
    have hconst : instance_.threads.map Prod.fst =
        List.replicate (ths.length + 1) pid := by
      refine List.eq_replicate_iff.mpr ⟨?_, fun p hp => ?_⟩
      · rw [List.length_map, hthreads, List.length_cons]
      · obtain ⟨th', hth', rfl⟩ := List.mem_map.mp hp
        exact hone th' hth'
    rw [hconst]
    exact List.replicate_dedup (Nat.succ_ne_zero _)
  have hget : ∃ rest, instance_.getThreads pid = (th.2, 0) :: rest := by
    rw [Instance.getThreads, hthreads, List.zipIdx_cons, List.filterMap_cons]
    simp only [hth, if_true]
    exact ⟨_, rfl⟩
  obtain ⟨rest, hget⟩ := hget
  refine ⟨th.2, rest, ?_, hget⟩
  rw [Instance.leader, hpids]
  simp only [hget]

end FlexPS.Scheduler

namespace FlexPS.Worker

open Lib Scheduler

/-! ## The places -/

/-- Where the model of a task is while no leader has it: nowhere, in a store, in a store with a message
about its transfer under way, or in a mailbox. -/
inductive Spot (M : Type) where
  | nowhere
  | stored (pid : ℕ) (model : M)
  | leaving (pid dst : ℕ) (model : M)
  | mailed (dst : ℕ) (model : M)

/-- What the store of a process has. -/
def Spot.store {M : Type} : Spot M → ℕ → Option M
  | stored p model, pid => if pid = p then some model else none
  | leaving p _ model, pid => if pid = p then some model else none
  | _, _ => none

/-- The messages about the transfer, at a process. -/
def Spot.transfers {M : Type} (id : ℕ) : Spot M → ℕ → List Transfer
  | leaving p dst _, pid => if pid = p then [⟨dst, id⟩] else []
  | _, _ => []

namespace Spot

variable {M : Type} (id p dst pid : ℕ) (model : M)

@[simp] theorem store_nowhere : (nowhere : Spot M).store pid = none := rfl
@[simp] theorem store_stored :
    (stored p model).store pid = if pid = p then some model else none := rfl
@[simp] theorem store_leaving :
    (leaving p dst model).store pid = if pid = p then some model else none := rfl
@[simp] theorem store_mailed : (mailed dst model).store pid = none := rfl

@[simp] theorem transfers_nowhere : (nowhere : Spot M).transfers id pid = [] := rfl
@[simp] theorem transfers_stored : (stored p model).transfers id pid = [] := rfl
@[simp] theorem transfers_leaving :
    (leaving p dst model).transfers id pid = if pid = p then [⟨dst, id⟩] else [] := rfl
@[simp] theorem transfers_mailed : (mailed dst model).transfers id pid = [] := rfl

end Spot

/-- Where a model is that has been dumped at the end of the last instance. -/
def Spot.after {M : Type} (instance_ : Instance) (pid : ℕ) (model : M) : Spot M :=
  if instance_.epoch + 1 < instance_.task.totalEpoch then stored pid model else nowhere

section After

variable {M : Type} (instance_ : Instance) (pid : ℕ) (model : M)

theorem Spot.after_eq : after instance_ pid model = stored pid model ∧
      instance_.epoch + 1 < instance_.task.totalEpoch ∨
    after instance_ pid model = nowhere ∧ ¬ instance_.epoch + 1 < instance_.task.totalEpoch := by
  by_cases h : instance_.epoch + 1 < instance_.task.totalEpoch
  · exact .inl ⟨if_pos h, h⟩
  · exact .inr ⟨if_neg h, h⟩

/-- A model that has been dumped is not on the way to a thread. -/
theorem Spot.after_transfers (id pid' : ℕ) : (after instance_ pid model).transfers id pid' = [] := by
  rcases after_eq instance_ pid model with ⟨heq, -⟩ | ⟨heq, -⟩ <;> rw [heq] <;> rfl

theorem Spot.after_ne_mailed (tid : ℕ) (model' : M) :
    after instance_ pid model ≠ .mailed tid model' := by
  rcases after_eq instance_ pid model with ⟨heq, -⟩ | ⟨heq, -⟩ <;> rw [heq] <;> rintro ⟨⟩

end After

/-- What the last instance has left behind. -/
inductive Left {M : Type} (info : WorkerInfo) (id : ℕ) :
    Option Instance → Option (TransferEvent M) → Spot M → Prop
  | nothing : Left info id none none .nowhere
  | dumped (instance_ : Instance) (pid tid : ℕ) (model : M)
      (hleader : instance_.leader = some (pid, tid)) (hpid : info.processId tid = pid) :
      Left info id (some instance_) (some (.dumped id instance_.epoch model))
        (.after instance_ pid model)

/-- What the leader of an instance is owed: in the first epoch nothing, in others the model, which is
on the way to it. -/
inductive Owed {M : Type} (id : ℕ) (instance_ : Instance) (tid : ℕ) :
    Option (TransferEvent M) → Spot M → Prop
  | first (e : Option (TransferEvent M)) (hepoch : instance_.epoch = 0)
      (hlast : ∀ e', e = some e' → ∃ epoch model, e' = .dumped id epoch model) :
      Owed id instance_ tid e .nowhere
  | leaving (epoch pid : ℕ) (model : M) (hepoch : instance_.epoch = epoch + 1) :
      Owed id instance_ tid (some (.dumped id epoch model)) (.leaving pid tid model)
  | mailed (epoch : ℕ) (model : M) (hepoch : instance_.epoch = epoch + 1) :
      Owed id instance_ tid (some (.dumped id epoch model)) (.mailed tid model)

theorem Owed.cases {M : Type} {id tid : ℕ} {instance_ : Instance} {e : Option (TransferEvent M)}
    {sp : Spot M} (h : Owed id instance_ tid e sp) :
    (instance_.epoch = 0 ∧ sp = .nowhere ∧
      ∀ e', e = some e' → ∃ epoch model, e' = .dumped id epoch model) ∨
    ∃ epoch model, instance_.epoch = epoch + 1 ∧ e = some (.dumped id epoch model) ∧
      ((∃ pid, sp = .leaving pid tid model) ∨ sp = .mailed tid model) := by
  cases h with
  | first e hepoch hlast => exact .inl ⟨hepoch, rfl, hlast⟩
  | leaving epoch pid model hepoch => exact .inr ⟨epoch, model, hepoch, rfl, .inl ⟨pid, rfl⟩⟩
  | mailed epoch model hepoch => exact .inr ⟨epoch, model, hepoch, rfl, .inr rfl⟩

/-- What the leader has done. -/
inductive Doing {M : Type} (id : ℕ) (instance_ : Instance) (tid : ℕ) :
    Stage M → Option (TransferEvent M) → Spot M → Prop
  | fresh (e : Option (TransferEvent M)) (sp : Spot M) (howed : Owed id instance_ tid e sp) :
      Doing id instance_ tid .fresh e sp
  | working (model : M) : Doing id instance_ tid (.working model)
      (some (.loaded id instance_.epoch model)) .nowhere

/-- No message brings an instance of the task to a process that it has threads on. -/
def NoMessage (processes : ℕ → Process) (id : ℕ) : Prop :=
  ∀ pid instance_, .task instance_ ∈ (processes pid).inbox → instance_.id = id →
    instance_.localTids pid = []

/-- The leader of the task on the process, if there is one, has dumped its model. -/
def NotLeading {M : Type} (leader : Option (Instance × Stage M)) : Prop :=
  ∀ instance_ stage, leader = some (instance_, stage) → stage = .dumped

/-- An instance of the task, with its process and its leader. -/
structure Leads (info : WorkerInfo) (id : ℕ) (instance_ : Instance) (pid tid : ℕ) : Prop where
  id_eq : instance_.id = id
  placed : WellPlaced info instance_
  leader : ∃ rest, instance_.getThreads pid = (tid, 0) :: rest
  leader_eq : instance_.leader = some (pid, tid)
  one : ∀ th ∈ instance_.threads, th.1 = pid

/-- Where the last instance of a task is, and where its model is: it is over; it is on the way to its
process; or its leader runs. -/
inductive Situation {M : Type} {info : WorkerInfo} (ids : LocalIds info) (id : ℕ)
    (processes : ℕ → Process) (leaders : ℕ → Option (Instance × Stage M)) :
    Option Instance → Option (TransferEvent M) → Spot M → Prop
  | resting (last : Option Instance) (e : Option (TransferEvent M)) (sp : Spot M)
      (hmessage : NoMessage processes id) (hleader : ∀ pid, NotLeading (leaders pid))
      (hleft : Left info id last e sp) : Situation ids id processes leaders last e sp
  | announced (instance_ : Instance) (pid tid : ℕ) (e : Option (TransferEvent M)) (sp : Spot M)
      (hleads : Leads info id instance_ pid tid)
      (hinbox : .task instance_ ∈ (processes pid).inbox)
      (honly : ∀ pid' instance', .task instance' ∈ (processes pid').inbox → instance'.id = id →
        instance'.localTids pid' ≠ [] → instance' = instance_)
      (hleader : ∀ pid', NotLeading (leaders pid')) (howed : Owed id instance_ tid e sp) :
      Situation ids id processes leaders (some instance_) e sp
  | started (instance_ : Instance) (pid tid : ℕ) (stage : Stage M) (e : Option (TransferEvent M))
      (sp : Spot M) (hleads : Leads info id instance_ pid tid) (hmessage : NoMessage processes id)
      (hrunning : (id, ids.globalToLocalId tid) ∈ (processes pid).running)
      (hleader : leaders pid = some (instance_, stage))
      (hother : ∀ pid', pid' ≠ pid → NotLeading (leaders pid'))
      (hdoing : Doing id instance_ tid stage e sp) :
      Situation ids id processes leaders (some instance_) e sp

variable {M : Type} {info : WorkerInfo} {ids : LocalIds info} {id pid tid n : ℕ}
  {processes processes' : ℕ → Process} {leaders : ℕ → Option (Instance × Stage M)}
  {last : Option Instance} {e : Option (TransferEvent M)} {sp : Spot M} {out : List SchedEvent}
  {instance_ : Instance} {p p' : Process}

theorem Leads.mem (h : Leads info id instance_ pid tid) : tid ∈ instance_.localTids pid := by
  obtain ⟨rest, hget⟩ := h.leader
  rw [Instance.localTids, hget]
  exact List.mem_cons_self ..

theorem Leads.ne_nil (h : Leads info id instance_ pid tid) : instance_.localTids pid ≠ [] :=
  List.ne_nil_of_mem h.mem

/-- The instance has threads on its process only. -/
theorem Leads.pid_eq (h : Leads info id instance_ pid tid) {pid' : ℕ}
    (hne : instance_.localTids pid' ≠ []) : pid' = pid := by
  obtain ⟨tid', htid'⟩ := List.exists_mem_of_ne_nil _ hne
  exact h.one _ (Instance.mem_localTids.mp htid')

theorem Leads.thread (h : Leads info id instance_ pid tid) :
    pid = info.processId tid ∧ tid ∈ info.globalTids :=
  h.placed.2 _ (Instance.mem_localTids.mp h.mem)

/-- The leader has not finished, or its instance has not arrived: **it is held**. -/
theorem Leads.held_of_inbox (h : Leads info id instance_ pid tid)
    (hinbox : .task instance_ ∈ (processes pid).inbox)
    (hagrees : (processes pid).Agrees ids pid out) : id ∈ holders out tid := by
  have hbooked : (id, tid) ∈ (processes pid).inbox.flatMap (WorkerMessage.bookings pid) := by
    refine List.mem_flatMap.mpr ⟨_, hinbox, ?_⟩
    rw [← h.id_eq]
    exact List.mem_map_of_mem h.mem
  exact (hagrees.booked.mem_holders (List.mem_append_left _ (List.mem_append_left _ hbooked))).2

theorem Leads.held_of_running (h : Leads info id instance_ pid tid)
    (hrunning : (id, ids.globalToLocalId tid) ∈ (processes pid).running)
    (hagrees : (processes pid).Agrees ids pid out) : id ∈ holders out tid := by
  have hused : (id, ids.globalToLocalId tid) ∈ (processes pid).used :=
    List.mem_append_left _ hrunning
  have hheld := (hagrees.booked.mem_holders
    (List.mem_append_left _ (List.mem_append_right _ (List.mem_map_of_mem hused)))).2
  obtain ⟨hpid, htid⟩ := h.thread
  have hinverse : ids.localToGlobalId pid (ids.globalToLocalId tid) = tid := by
    rw [hpid]
    exact ids.inverse tid htid
  simp only [Process.globally, hinverse] at hheld
  exact hheld

/-- **A leader that is owed something is held.** -/
theorem Situation.held (h : Situation ids id processes leaders last e sp)
    (hagrees : ∀ pid, (processes pid).Agrees ids pid out) (tid : ℕ)
    (hsp : (∃ p model, sp = .leaving p tid model) ∨ ∃ model, sp = .mailed tid model) :
    id ∈ holders out tid := by
  have howed : ∀ {instance_ tid'}, Owed id instance_ tid' e sp → tid' = tid := by
    intro instance_ tid' howed
    cases howed with
    | first _ _ _ => rcases hsp with ⟨_, _, hsp⟩ | ⟨_, hsp⟩ <;> cases hsp
    | leaving _ _ _ _ =>
        rcases hsp with ⟨_, _, hsp⟩ | ⟨_, hsp⟩
        · cases hsp
          rfl
        · cases hsp
    | mailed _ _ _ =>
        rcases hsp with ⟨_, _, hsp⟩ | ⟨_, hsp⟩
        · cases hsp
        · cases hsp
          rfl
  cases h with
  | resting _ _ _ _ _ hleft =>
      exfalso
      cases hleft with
      | nothing => rcases hsp with ⟨_, _, hsp⟩ | ⟨_, hsp⟩ <;> cases hsp
      | dumped instance_ pid _ model _ _ =>
          unfold Spot.after at hsp
          split at hsp
          · rcases hsp with ⟨_, _, hsp⟩ | ⟨_, hsp⟩ <;> cases hsp
          · rcases hsp with ⟨_, _, hsp⟩ | ⟨_, hsp⟩ <;> cases hsp
  | announced instance_ pid tid' _ _ hleads hinbox _ _ how =>
      rw [← howed how]
      exact hleads.held_of_inbox hinbox (hagrees pid)
  | started instance_ pid tid' stage _ _ hleads _ hrunning _ _ hdoing =>
      cases hdoing with
      | fresh _ _ how =>
          rw [← howed how]
          exact hleads.held_of_running hrunning (hagrees pid)
      | working model => rcases hsp with ⟨_, _, hsp⟩ | ⟨_, hsp⟩ <;> cases hsp

/-- A task that does not run rests. -/
theorem Situation.rests (h : Situation ids id processes leaders last e sp)
    (hagrees : ∀ pid, (processes pid).Agrees ids pid out) (hidle : ¬ Busy out id) :
    NoMessage processes id ∧ (∀ pid, NotLeading (leaders pid)) ∧ Left info id last e sp := by
  cases h with
  | resting _ _ _ hmessage hleader hleft => exact ⟨hmessage, hleader, hleft⟩
  | announced instance_ pid tid _ _ hleads hinbox _ _ _ =>
      exact absurd ⟨tid, hleads.held_of_inbox hinbox (hagrees pid)⟩ hidle
  | started instance_ pid tid stage _ _ hleads _ hrunning _ _ _ =>
      exact absurd ⟨tid, hleads.held_of_running hrunning (hagrees pid)⟩ hidle

/-! ## What the processes do -/

/-- What does not concern the task: its messages stay, and its threads run on, unless the leader has
dumped the model. -/
theorem Situation.frame (h : Situation ids id processes leaders last e sp)
    (hinbox : ∀ pid instance_, instance_.id = id →
      (.task instance_ ∈ (processes' pid).inbox ↔ .task instance_ ∈ (processes pid).inbox))
    (hrunning : ∀ pid th, th.1 = id → th ∈ (processes pid).running →
      th ∈ (processes' pid).running ∨ ∃ instance_, leaders pid = some (instance_, .dumped)) :
    Situation ids id processes' leaders last e sp := by
  have hmessages : NoMessage processes id → NoMessage processes' id :=
    fun hmessage pid instance_ hmem hid => hmessage pid instance_ ((hinbox pid _ hid).mp hmem) hid
  cases h with
  | resting _ _ _ hmessage hleader hleft => exact .resting _ _ _ (hmessages hmessage) hleader hleft
  | announced instance_ pid tid _ _ hleads hmem honly hleader howed =>
      exact .announced instance_ pid tid _ _ hleads ((hinbox pid _ hleads.id_eq).mpr hmem)
        (fun pid' instance' hmem' hid =>
          honly pid' instance' ((hinbox pid' instance' hid).mp hmem') hid) hleader howed
  | started instance_ pid tid stage _ _ hleads hmessage hrun hleader hother hdoing =>
      rcases hrunning pid _ rfl hrun with hrun' | ⟨instance', hdumped⟩
      · exact .started instance_ pid tid stage _ _ hleads (hmessages hmessage) hrun' hleader hother
          hdoing
      · obtain ⟨-, rfl⟩ := Prod.mk.inj (Option.some.inj (hleader.symm.trans hdumped))
        cases hdoing

/-- A step of one process that does not concern the messages. -/
theorem Situation.update (h : Situation ids id processes leaders last e sp)
    (hinbox : p.inbox = (processes pid).inbox) (hrunning : ∀ th, th.1 = id →
      th ∈ (processes pid).running → th ∈ p.running ∨
        ∃ instance_, leaders pid = some (instance_, .dumped)) :
    Situation ids id (Function.update processes pid p) leaders last e sp := by
  refine h.frame (fun pid' instance_ _ => ?_) fun pid' th hid hth => ?_
  · rw [Function.update_apply]
    split
    · next heq => rw [hinbox, heq]
    · exact Iff.rfl
  · rw [Function.update_apply]
    split
    · next heq =>
        subst heq
        exact hrunning th hid hth
    · exact .inl hth

/-- **A thread comes to its end**, but not a leader that has not dumped its model. -/
theorem Situation.complete (h : Situation ids id processes leaders last e sp)
    (hstep : (processes pid).complete n = some p) (hfinish : ∀ th,
      (processes pid).running[n]? = some th → th.1 = id →
      ∃ instance_, leaders pid = some (instance_, .dumped)) :
    Situation ids id (Function.update processes pid p) leaders last e sp := by
  obtain ⟨th, hth, rfl⟩ := Option.map_eq_some_iff.mp hstep
  refine h.update rfl fun th' hid hmem => ?_
  obtain ⟨hn, hget⟩ := List.getElem?_eq_some_iff.mp hth
  have hmem' := (List.getElem_cons_eraseIdx_perm hn).mem_iff.mpr hmem
  rcases List.mem_cons.mp hmem' with rfl | hmem'
  · exact .inr (hfinish th hth (hget ▸ hid))
  · exact .inl hmem'

/-- The worker receives a message that has no threads of the task for it. -/
theorem Situation.receive_other (h : Situation ids id processes leaders last e sp)
    {m : WorkerMessage} (hinbox : (processes pid).inbox = m :: p.inbox)
    (hrunning : ∀ th ∈ (processes pid).running, th ∈ p.running)
    (hm : ∀ instance_, m = .task instance_ → instance_.id = id → instance_.localTids pid = []) :
    Situation ids id (Function.update processes pid p) leaders last e sp := by
  have hmem : ∀ {pid' m'}, m' ∈ (Function.update processes pid p pid').inbox →
      m' ∈ (processes pid').inbox := by
    intro pid' m' hm'
    rw [Function.update_apply] at hm'
    split at hm'
    · next heq =>
        rw [heq, hinbox]
        exact List.mem_cons_of_mem _ hm'
    · exact hm'
  have hkept : ∀ {pid' th}, th ∈ (processes pid').running →
      th ∈ (Function.update processes pid p pid').running := by
    intro pid' th hth
    rw [Function.update_apply]
    split
    · next heq => exact hrunning th (heq ▸ hth)
    · exact hth
  cases h with
  | resting _ _ _ hmessage hleader hleft =>
      exact .resting _ _ _ (fun pid' instance_ hm' => hmessage pid' instance_ (hmem hm')) hleader hleft
  | announced instance_ pid' tid _ _ hleads hmem' honly hleader howed =>
      refine .announced instance_ pid' tid _ _ hleads ?_
        (fun pid'' instance' hm' => honly pid'' instance' (hmem hm')) hleader howed
      rw [Function.update_apply]
      split
      · next heq =>
          subst heq
          rw [hinbox] at hmem'
          refine (List.mem_cons.mp hmem').resolve_left fun heq => ?_
          exact hleads.ne_nil (hm instance_ heq.symm hleads.id_eq)
      · exact hmem'
  | started instance_ pid' tid stage _ _ hleads hmessage hrun hleader hother hdoing =>
      exact .started instance_ pid' tid stage _ _ hleads
        (fun pid'' instance' hm' => hmessage pid'' instance' (hmem hm')) (hkept hrun) hleader hother
        hdoing

/-- **The instance arrives**, and its leader starts. -/
theorem Situation.receive (h : Situation ids id processes leaders last e sp)
    (hagrees : (processes pid).Agrees ids pid out)
    (hinbox : (processes pid).inbox = .task instance_ :: p.inbox) (hid : instance_.id = id)
    (hlocal : instance_.localTids pid ≠ [])
    (hrunning : p.running = (processes pid).running ++
      ((instance_.localTids pid).map ids.globalToLocalId).map (id, ·)) :
    Situation ids id (Function.update processes pid p)
      (Function.update leaders pid (some (instance_, .fresh))) last e sp := by
  have hfirst : .task instance_ ∈ (processes pid).inbox := hinbox ▸ List.mem_cons_self ..
  cases h with
  | resting _ _ _ hmessage _ _ => exact absurd (hmessage pid instance_ hfirst hid) hlocal
  | started _ _ _ _ _ _ _ hmessage _ _ _ _ =>
      exact absurd (hmessage pid instance_ hfirst hid) hlocal
  | announced instance' pid' tid _ _ hleads _ honly hleader howed =>
      obtain rfl := honly pid instance_ hfirst hid hlocal
      obtain rfl := hleads.pid_eq hlocal
      refine .started instance_ pid tid .fresh _ _ hleads ?_ ?_ (Function.update_self ..)
        (fun pid' hne => ?_) (.fresh _ _ howed)
      · -- the message is the only one
        intro pid' instance' hmem hid'
        by_contra hne
        have hmem' : .task instance' ∈ (processes pid').inbox := by
          rw [Function.update_apply] at hmem
          split at hmem
          · next heq =>
              rw [heq, hinbox]
              exact List.mem_cons_of_mem _ hmem
          · exact hmem
        obtain rfl := honly pid' instance' hmem' hid' hne
        obtain rfl := hleads.pid_eq hne
        rw [Function.update_self] at hmem
        obtain ⟨before, after, hsplit⟩ := List.append_of_mem hmem
        have hbooked : (instance'.id, tid) ∈
            (WorkerMessage.task instance' :: before).flatMap (WorkerMessage.bookings pid') ++
              (processes pid').used.map (Process.globally ids pid') := by
          refine List.mem_append_left _ (List.mem_flatMap.mpr ⟨_, List.mem_cons_self .., ?_⟩)
          exact List.mem_map_of_mem hleads.mem
        refine hagrees.booked.ahead (.task instance' :: before) instance' after ?_ _ hbooked rfl
        rw [hinbox, hsplit, List.cons_append]
      · rw [Function.update_self, hrunning]
        refine List.mem_append_right _ (List.mem_map_of_mem (List.mem_map_of_mem hleads.mem))
      · rw [Function.update_of_ne hne]
        exact hleader pid'

/-! ## What the cluster manager does -/

/-- An instance of another task is sent to the workers. -/
theorem Situation.announce_other (h : Situation ids id processes leaders last e sp)
    (hid : instance_.id ≠ id)
    (hinbox : ∀ pid, (processes' pid).inbox = (processes pid).inbox ++ [.task instance_])
    (hrunning : ∀ pid, (processes' pid).running = (processes pid).running) :
    Situation ids id processes' leaders last e sp := by
  refine h.frame (fun pid instance' hid' => ?_) fun pid th _ hth => .inl (hrunning pid ▸ hth)
  rw [hinbox, List.mem_append, List.mem_singleton]
  refine or_iff_left fun heq => hid ?_
  rw [← hid', WorkerMessage.task.inj heq]

/-- **The next instance is sent to the workers**, when the task rests. -/
theorem situation_announced (hmessage : NoMessage processes id)
    (hleader : ∀ pid, NotLeading (leaders pid)) (hleads : Leads info id instance_ pid tid)
    (hinbox : ∀ pid, (processes' pid).inbox = (processes pid).inbox ++ [.task instance_])
    (howed : Owed id instance_ tid e sp) :
    Situation ids id processes' leaders (some instance_) e sp := by
  refine .announced instance_ pid tid e sp hleads ?_ (fun pid' instance' hmem hid hne => ?_) hleader
    howed
  · rw [hinbox]
    exact List.mem_append_right _ (List.mem_singleton_self _)
  · rw [hinbox, List.mem_append, List.mem_singleton] at hmem
    rcases hmem with hmem | heq
    · exact absurd (hmessage pid' instance' hmem hid) hne
    · exact WorkerMessage.task.inj heq

/-- The thread of an instance that leads it. -/
theorem leads_of_gathered (hplaced : WellPlaced info instance_) (hne : instance_.threads ≠ [])
    (hone : ∃ pid, ∀ th ∈ instance_.threads, th.1 = pid) :
    ∃ pid tid, Leads info instance_.id instance_ pid tid := by
  obtain ⟨pid, hone⟩ := hone
  obtain ⟨tid, rest, hleader, hget⟩ := Instance.leader_some hne hone
  exact ⟨pid, tid, rfl, hplaced, ⟨rest, hget⟩, hleader, hone⟩

/-- **The model is sent** to the mailbox of the next leader. -/
theorem Situation.mail {dst : ℕ} {model : M}
    (h : Situation ids id processes leaders last e (.leaving pid dst model)) :
    Situation ids id processes leaders last e (.mailed dst model) := by
  have hmail : ∀ {instance_ tid}, Owed id instance_ tid e (.leaving pid dst model) →
      Owed id instance_ tid e (.mailed dst model) := by
    intro instance_ tid howed
    cases howed with
    | leaving epoch _ _ hepoch => exact .mailed epoch model hepoch
  cases h with
  | resting _ _ _ _ _ hleft =>
      exfalso
      generalize hsp : Spot.leaving pid dst model = sp at hleft
      cases hleft with
      | nothing => cases hsp
      | dumped _ _ _ _ _ _ =>
          unfold Spot.after at hsp
          split at hsp <;> cases hsp
  | announced instance_ pid' tid _ _ hleads hinbox honly hleader howed =>
      exact .announced instance_ pid' tid _ _ hleads hinbox honly hleader (hmail howed)
  | started instance_ pid' tid stage _ _ hleads hmessage hrunning hleader hother hdoing =>
      cases hdoing with
      | fresh _ _ howed =>
          exact .started instance_ pid' tid .fresh _ _ hleads hmessage hrunning hleader hother
            (.fresh _ _ (hmail howed))

/-! ## What the leader does -/

/-- **The leader loads its model.** -/
theorem Situation.load (h : Situation ids id processes leaders last e sp)
    (hleader : leaders pid = some (instance_, .fresh)) :
    ∃ tid rest, instance_.getThreads pid = (tid, 0) :: rest ∧ Owed id instance_ tid e sp ∧
      ∀ model, Situation ids id processes
        (Function.update leaders pid (some (instance_, .working model))) last
        (some (.loaded id instance_.epoch model)) .nowhere := by
  cases h with
  | resting _ _ _ _ hnot _ => cases hnot pid _ _ hleader
  | announced _ _ _ _ _ _ _ _ hnot _ => cases hnot pid _ _ hleader
  | started instance' pid' tid stage _ _ hleads hmessage hrun hleader' hother hdoing =>
      have hpid : pid' = pid := by
        by_contra hne
        cases hother pid (Ne.symm hne) _ _ hleader
      subst hpid
      obtain ⟨rfl, rfl⟩ := Prod.mk.inj (Option.some.inj (hleader'.symm.trans hleader))
      obtain ⟨rest, hget⟩ := hleads.leader
      cases hdoing with
      | fresh _ _ howed =>
          refine ⟨tid, rest, hget, howed, fun model => ?_⟩
          refine .started instance' pid' tid (.working model) _ _ hleads hmessage hrun
            (Function.update_self ..) (fun pid hne => ?_) (.working model)
          rw [Function.update_of_ne hne]
          exact hother pid hne

/-- **The leader dumps its model.** -/
theorem Situation.dump (h : Situation ids id processes leaders last e sp) {loaded : M}
    (hleader : leaders pid = some (instance_, .working loaded)) :
    e = some (.loaded id instance_.epoch loaded) ∧ sp = .nowhere ∧ last = some instance_ ∧
      ∀ model, Situation ids id processes
        (Function.update leaders pid (some (instance_, .dumped))) last
        (some (.dumped id instance_.epoch model)) (.after instance_ pid model) := by
  cases h with
  | resting _ _ _ _ hnot _ => cases hnot pid _ _ hleader
  | announced _ _ _ _ _ _ _ _ hnot _ => cases hnot pid _ _ hleader
  | started instance' pid' tid stage _ _ hleads hmessage hrun hleader' hother hdoing =>
      have hpid : pid' = pid := by
        by_contra hne
        cases hother pid (Ne.symm hne) _ _ hleader
      subst hpid
      obtain ⟨rfl, rfl⟩ := Prod.mk.inj (Option.some.inj (hleader'.symm.trans hleader))
      cases hdoing with
      | working model =>
          refine ⟨rfl, rfl, rfl, fun model => ?_⟩
          refine .resting _ _ _ hmessage (fun pid instance'' stage heq => ?_)
            (.dumped instance' pid' tid model hleads.leader_eq hleads.thread.1.symm)
          by_cases hne : pid = pid'
          · subst hne
            rw [Function.update_self] at heq
            exact (Prod.mk.inj (Option.some.inj heq)).2.symm
          · rw [Function.update_of_ne hne] at heq
            exact hother pid hne _ _ heq

end FlexPS.Worker
