import FlexPS.Worker.DoubleBooking
import FlexPS.Worker.Whereabouts

/-!
# Models are handed over

Whatever the processes and the cluster manager do, the leader of an epoch loads the model that the
leader of the epoch before has dumped: every message about a transfer finds its model, and every model
finds its leader.

## Main definitions

* `Spot.Sent` — what `send_last_instance` does to the place of a model.
* `Delivers` — the stores, the messages and the mailboxes have the models that are in these places.
* `Delivers.announce` — instances are sent to the workers.
* `Delivers.step`, `TransferRun.delivers` — every step keeps it, and every run.
* `models_handed_over`, `models_never_lost` — the statements for three schedulers.
-/

namespace FlexPS.Worker

open Lib Scheduler

/-! ## The next instance -/

/-- What `send_last_instance` does to the place of the model, with what it sends. -/
inductive Spot.Sent {M : Type} (id : ℕ) : Spot M → Spot M → List (ℕ × Transfer) → Prop
  | stays : Sent id .nowhere .nowhere []
  | leaves (pid dst : ℕ) (model : M) :
      Sent id (.stored pid model) (.leaving pid dst model) [(pid, ⟨dst, id⟩)]

section Issue

variable {M : Type} {info : WorkerInfo} {ids : LocalIds info} {dmt : ℕ → Bool}
  {processes processes' : ℕ → Process} {leaders : ℕ → Option (Instance × Stage M)}
  {e : Option (TransferEvent M)} {sp : Spot M} {out : List SchedEvent} {instance_ : Instance}

/-- After the last epoch of a task nothing is left. -/
theorem Left.ended {last : Option Instance} {id : ℕ} (h : Left info id last e sp)
    (hlast : ∀ last', last = some last' → last'.epoch + 1 = last'.task.totalEpoch) :
    sp = .nowhere := by
  cases h with
  | nothing => rfl
  | dumped last' pid tid model hleader hpid => exact if_neg (hlast last' rfl).not_lt

/-- The first epoch of a task finds nothing. -/
theorem Left.first {last : Option Instance} {id : ℕ} (h : Left info id last e sp)
    (hlast : ∀ last', last = some last' → last'.epoch + 1 = last'.task.totalEpoch)
    (hepoch : instance_.epoch = 0) (tid : ℕ) : sp = .nowhere ∧ Owed id instance_ tid e sp := by
  have hover := h.ended hlast
  rw [hover]
  refine ⟨rfl, .first _ hepoch fun e' heq => ?_⟩
  cases h with
  | nothing => cases heq
  | dumped last' pid tid' model hleader hpid => exact ⟨_, _, (Option.some.inj heq).symm⟩

/-- **The next instance of a task that rests**: `send_last_instance` tells the process of the last one
to send the model, if there is one, and the leader of the next one is owed it. -/
theorem Situation.issue
    (h : Situation ids instance_.id processes leaders (lastInstance out instance_.id) e sp)
    (hagrees : ∀ pid, (processes pid).Agrees ids pid out)
    (hfresh : FreshIssue info out (.issued instance_)) (hnext : Consecutive out (.issued instance_))
    (hgathered : Gathered dmt out (.issued instance_)) (hdmt : dmt instance_.id = true)
    (hinbox : ∀ pid, (processes' pid).inbox = (processes pid).inbox ++ [.task instance_]) :
    ∃ transfers sp', sendLastInstance info dmt (lastInstance out) instance_ = some transfers ∧
      Situation ids instance_.id processes' leaders (some instance_) e sp' ∧
      Spot.Sent instance_.id sp sp' transfers := by
  obtain ⟨hmessage, hleader, hleft⟩ := h.rests hagrees (hfresh.2 instance_ rfl)
  obtain ⟨hlocal, hone⟩ := hgathered instance_ rfl hdmt
  obtain ⟨pid, tid, hleads⟩ :=
    leads_of_gathered (wellPlaced_of_fresh hfresh) (hfresh.1 instance_ rfl).1 hone
  obtain ⟨hlt, hfollows⟩ := hnext instance_ rfl
  have hsends : ¬ (instance_.task.isLocal = false ∨ dmt instance_.id = false) := by
    rw [hlocal, hdmt]
    rintro (heq | heq) <;> cases heq
  rcases hfollows with ⟨hzero, hlast⟩ | ⟨last, hlast, hinc⟩
  · obtain ⟨rfl, howed⟩ := hleft.first hlast hzero tid
    refine ⟨[], .nowhere, ?_, situation_announced hmessage hleader hleads hinbox howed, .stays⟩
    rw [sendLastInstance, if_neg hsends, if_pos (show instance_.epoch = 0 from hzero)]
  · have hepoch : instance_.epoch = last.epoch + 1 := by rw [Instance.epoch, ← hinc]; rfl
    have htotal : instance_.task.totalEpoch = last.task.totalEpoch := by rw [← hinc]; rfl
    rw [hlast] at hleft
    cases hleft with
    | dumped _ pid' tid' model hleader' hpid =>
        have hstored : Spot.after last pid' model = .stored pid' model := by
          refine if_pos ?_
          omega
        rw [hstored]
        refine ⟨[(pid', ⟨tid, instance_.id⟩)], .leaving pid' tid model, ?_,
          situation_announced hmessage hleader hleads hinbox (.leaving _ pid' model hepoch),
          .leaves pid' tid model⟩
        have hpositive : instance_.epoch ≠ 0 := hepoch ▸ Nat.succ_ne_zero _
        rw [sendLastInstance, if_neg hsends, if_neg hpositive, hlast]
        simp only [Option.bind_eq_bind, Option.bind_some, hleader', hleads.leader_eq, hpid]

end Issue

/-! ## What is sent -/

/-- A model that is on the way to a thread. -/
def Spot.Bound {M : Type} (sp : Spot M) (tid : ℕ) : Prop :=
  (∃ pid model, sp = .leaving pid tid model) ∨ ∃ model, sp = .mailed tid model

namespace Spot

variable {M : Type} {id tid : ℕ} {sp sp' : Spot M} {sent : List (ℕ × Transfer)}

theorem not_bound_nowhere : ¬ (nowhere : Spot M).Bound tid := by
  rintro (⟨_, _, heq⟩ | ⟨_, heq⟩) <;> cases heq

/-- Nothing is moved. -/
theorem Sent.store (h : Sent id sp sp' sent) : sp'.store = sp.store := by
  cases h <;> rfl

theorem Sent.not_mailed (h : Sent id sp sp' sent) (dst : ℕ) (model : M) :
    sp ≠ .mailed dst model ∧ sp' ≠ .mailed dst model := by
  cases h with
  | stays => exact ⟨(by rintro ⟨⟩), by rintro ⟨⟩⟩
  | leaves _ _ _ => exact ⟨(by rintro ⟨⟩), by rintro ⟨⟩⟩

/-- **The messages are those about the task.** -/
theorem Sent.transfers (h : Sent id sp sp' sent) (id' pid : ℕ) :
    ((sent.filter (·.1 = pid)).map Prod.snd).filter (·.taskId = id') =
      (if id' = id then sp'.transfers id pid else []) ∧ sp.transfers id pid = [] := by
  cases h with
  | stays => exact ⟨(ite_self _).symm, rfl⟩
  | leaves pid' dst model =>
      refine ⟨?_, rfl⟩
      by_cases hpid : pid' = pid
      · subst hpid
        by_cases hid : id' = id
        · subst hid
          simp [Spot.transfers]
        · simp [hid, Ne.symm hid]
      · simp [Spot.transfers, hpid, Ne.symm hpid]

end Spot

/-! ## The models are where they are taken to be -/

/-- The models of the tasks that hand them over, by the places that they are in: the last instances are
those that have been issued, and the stores, the messages about transfers and the mailboxes have what
is there, and nothing else. -/
structure Delivers {σ M : Type} {info : WorkerInfo} (ids : LocalIds info) (dmt : ℕ → Bool)
    (history : List SchedEvent) (models : ℕ → Option (TransferEvent M)) (x : Transfers σ M)
    (spot : ℕ → Spot M) : Prop where
  last : x.lastInstance = lastInstance history
  situation : ∀ id, dmt id = true → Situation ids id x.system.processes (fun pid => x.leaders pid id)
    (lastInstance history id) (models id) (spot id)
  nowhere : ∀ id, dmt id = false → spot id = .nowhere
  store : ∀ pid id, x.store pid id = (spot id).store pid
  queue : ∀ pid id, (x.commands pid ++ x.signals pid).filter (·.taskId = id) =
    (spot id).transfers id pid
  mailbox : ∀ tid model, model ∈ x.mailbox tid → ∃ id, spot id = .mailed tid model
  mailed : ∀ id tid model, spot id = .mailed tid model → x.mailbox tid = [model]

/-- The cluster manager has sent instances and messages about transfers. -/
def Transfers.announced {σ M : Type} (x : Transfers σ M) (processes : ℕ → Process)
    (last : ℕ → Option Instance) (transfers : List (ℕ × Transfer)) : Transfers σ M :=
  { x with
    system := { x.system with processes := processes }
    lastInstance := last
    signals := signal x.signals transfers }

theorem Transfers.signal_nil (signals : ℕ → List Transfer) : signal signals [] = signals :=
  funext fun _ => List.append_nil _

theorem Transfers.announced_nothing {σ M : Type} (x : Transfers σ M) :
    x.announced (fun pid => (x.system.processes pid).deliver []) x.lastInstance [] = x := by
  simp only [announced, Process.deliver_nil, signal_nil]

theorem Transfers.announced_announced {σ M : Type} (x : Transfers σ M)
    (processes processes' : ℕ → Process) (last last' : ℕ → Option Instance)
    (transfers transfers' : List (ℕ × Transfer)) :
    (x.announced processes last transfers).announced processes' last' transfers' =
      x.announced processes' last' (transfers ++ transfers') := by
  have hsignal : signal (signal x.signals transfers) transfers' =
      signal x.signals (transfers ++ transfers') := by
    funext pid
    simp only [signal, List.filter_append, List.map_append, List.append_assoc]
  rw [announced, announced, hsignal]
  rfl

section Delivers

variable {σ M : Type} {info : WorkerInfo} {ids : LocalIds info} {dmt : ℕ → Bool}
  {history : List SchedEvent} {models : ℕ → Option (TransferEvent M)} {x : Transfers σ M}
  {spot : ℕ → Spot M} {id id' pid tid : ℕ} {c : Transfer} {e : SchedEvent} {model : M}

theorem delivers_start (s₀ : σ) (countThreshold : ℕ) (ids : LocalIds info) (dmt : ℕ → Bool) :
    Delivers ids dmt [] (fun _ => none) (.start s₀ countThreshold : Transfers σ M)
      fun _ => .nowhere where
  last := rfl
  situation id _ := .resting _ _ _ (fun _ _ hmem _ => absurd hmem List.not_mem_nil)
    (fun _ _ _ heq => by cases heq) .nothing
  nowhere _ _ := rfl
  store _ _ := rfl
  queue _ _ := rfl
  mailbox _ _ hmem := absurd hmem List.not_mem_nil
  mailed _ _ _ heq := by cases heq

/-- A place that is somewhere is that of a task that hands its model over. -/
theorem Delivers.handsOver (h : Delivers ids dmt history models x spot)
    (hsome : spot id ≠ .nowhere) : dmt id = true := by
  by_contra hnot
  exact hsome (h.nowhere id (Bool.eq_false_of_not_eq_true hnot))

/-- **No two models are on the way to one thread.** -/
theorem Delivers.exclusive (h : Delivers ids dmt history models x spot)
    (hagrees : ∀ pid, (x.system.processes pid).Agrees ids pid history)
    (hone : ∀ tid, (holders history tid).length ≤ 1) (hid : (spot id).Bound tid)
    (hid' : (spot id').Bound tid) : id = id' := by
  have hheld : ∀ {id}, (spot id).Bound tid → id ∈ holders history tid := by
    intro id hbound
    have hdmt : dmt id = true := h.handsOver fun heq => Spot.not_bound_nowhere (heq ▸ hbound)
    exact (h.situation id hdmt).held hagrees tid hbound
  have hsame := Ledger.eq_singleton_of_mem (hone tid) (hheld hid)
  have hmem := hheld hid'
  rw [hsame] at hmem
  exact (List.mem_singleton.mp hmem).symm

/-- **A message about a transfer finds its model.** -/
theorem Delivers.leaving (h : Delivers ids dmt history models x spot)
    (hc : c ∈ x.commands pid ++ x.signals pid) :
    ∃ model, spot c.taskId = .leaving pid c.dst model := by
  have hmem : c ∈ (x.commands pid ++ x.signals pid).filter (·.taskId = c.taskId) :=
    List.mem_filter.mpr ⟨hc, decide_eq_true rfl⟩
  rw [h.queue] at hmem
  cases hspot : spot c.taskId with
  | leaving pid' dst model =>
      rw [hspot, Spot.transfers] at hmem
      split at hmem
      · next heq =>
          have hdst := congrArg Transfer.dst (List.mem_singleton.mp hmem)
          exact ⟨model, heq ▸ hdst ▸ rfl⟩
      · cases hmem
  | _ =>
      rw [hspot] at hmem
      cases hmem

/-- **The rule**: the model of one task goes to another place. -/
theorem Delivers.move {history' : List SchedEvent} {models' : ℕ → Option (TransferEvent M)}
    {x' : Transfers σ M} {sp : Spot M} (h : Delivers ids dmt history models x spot)
    (hlast : x'.lastInstance = lastInstance history')
    (hsituation : ∀ id', dmt id' = true → Situation ids id' x'.system.processes
      (fun pid => x'.leaders pid id') (lastInstance history' id') (models' id')
      (Function.update spot id sp id'))
    (hnowhere : dmt id = false → sp = .nowhere)
    (hstore : ∀ pid id', x'.store pid id' = if id' = id then sp.store pid else x.store pid id')
    (hqueue : ∀ pid id', (x'.commands pid ++ x'.signals pid).filter (·.taskId = id') =
      if id' = id then sp.transfers id pid
      else (x.commands pid ++ x.signals pid).filter (·.taskId = id'))
    (hmailbox : ∀ tid model, model ∈ x'.mailbox tid →
      sp = .mailed tid model ∨ ∃ id', id' ≠ id ∧ spot id' = .mailed tid model)
    (hmailed : ∀ tid model, sp = .mailed tid model → x'.mailbox tid = [model])
    (hkept : ∀ id' tid model, id' ≠ id → spot id' = .mailed tid model →
      x'.mailbox tid = x.mailbox tid) :
    Delivers ids dmt history' models' x' (Function.update spot id sp) where
  last := hlast
  situation := hsituation
  nowhere id' hid' := by
    rw [Function.update_apply]
    split
    · next heq => exact hnowhere (heq ▸ hid')
    · exact h.nowhere id' hid'
  store pid id' := by
    rw [hstore, Function.update_apply]
    split
    · rfl
    · exact h.store pid id'
  queue pid id' := by
    rw [hqueue, Function.update_apply]
    split
    · next heq => rw [heq]
    · exact h.queue pid id'
  mailbox tid model hmem := by
    rcases hmailbox tid model hmem with hsp | ⟨id', hne, hid'⟩
    · exact ⟨id, by rw [Function.update_self, hsp]⟩
    · exact ⟨id', by rw [Function.update_of_ne hne, hid']⟩
  mailed id' tid model hid' := by
    rw [Function.update_apply] at hid'
    split at hid'
    · exact hmailed tid model hid'
    · next hne =>
        rw [hkept id' tid model hne hid']
        exact h.mailed id' tid model hid'

/-- No model goes to another place. -/
theorem Delivers.congr {history' : List SchedEvent} {x' : Transfers σ M}
    (h : Delivers ids dmt history models x spot) (hlast : x'.lastInstance = lastInstance history')
    (hsituation : ∀ id, dmt id = true → Situation ids id x'.system.processes
      (fun pid => x'.leaders pid id) (lastInstance history' id) (models id) (spot id))
    (hstore : x'.store = x.store)
    (hqueue : ∀ pid, x'.commands pid ++ x'.signals pid = x.commands pid ++ x.signals pid)
    (hmailbox : x'.mailbox = x.mailbox) : Delivers ids dmt history' models x' spot where
  last := hlast
  situation := hsituation
  nowhere := h.nowhere
  store := hstore ▸ h.store
  queue pid := hqueue pid ▸ h.queue pid
  mailbox := hmailbox ▸ h.mailbox
  mailed := hmailbox ▸ h.mailed

/-! ### The steps of the worker, the model transfer manager and the leaders -/

/-- The worker passes a message on. -/
theorem Delivers.forward {x' : Transfers σ M} (h : Delivers ids dmt history models x spot)
    (hstep : x.forward pid = some x') : Delivers ids dmt history models x' spot := by
  unfold Transfers.forward at hstep
  split at hstep
  · split at hstep
    · cases hstep
    · next c signals hsignals =>
        obtain rfl := Option.some.inj hstep
        refine h.congr h.last h.situation rfl (fun pid' => ?_) rfl
        by_cases hpid : pid' = pid
        · subst hpid
          simp only [Function.update_self, hsignals]
          rw [List.append_assoc, List.singleton_append]
        · simp only [Function.update_of_ne hpid]
  · cases hstep

/-- **The model transfer manager pops the model and sends it**: `Pop` finds it. -/
theorem Delivers.send (h : Delivers ids dmt history models x spot)
    (hagrees : ∀ pid, (x.system.processes pid).Agrees ids pid history)
    (hone : ∀ tid, (holders history tid).length ≤ 1) {commands : List Transfer}
    (hcommands : x.commands pid = c :: commands) : ∃ model x', x.send pid = some x' ∧
      Delivers ids dmt history models x' (Function.update spot c.taskId (.mailed c.dst model)) := by
  obtain ⟨model, hspot⟩ := h.leaving (List.mem_append_left _ (hcommands ▸ List.mem_cons_self ..))
  have hdmt : dmt c.taskId = true := h.handsOver (hspot ▸ by rintro ⟨⟩)
  have hstored : x.store pid c.taskId = some model := by
    rw [h.store, hspot]
    exact if_pos rfl
  have hbound : (spot c.taskId).Bound c.dst := .inl ⟨pid, model, hspot⟩
  have hother : ∀ {id model'}, spot id ≠ .mailed c.dst model' := by
    intro id model' hid
    obtain rfl := h.exclusive hagrees hone (.inr ⟨model', hid⟩) hbound
    cases hid.symm.trans hspot
  have hempty : x.mailbox c.dst = [] := by
    refine List.eq_nil_iff_forall_not_mem.mpr fun model' hmem => ?_
    obtain ⟨id, hid⟩ := h.mailbox c.dst model' hmem
    exact hother hid
  have hsend : x.send pid = some { x with
      commands := Function.update x.commands pid commands
      store := updateEntry x.store pid c.taskId none
      mailbox := Function.update x.mailbox c.dst [model] } := by
    rw [Transfers.send, hcommands]
    simp only [hstored, hempty, Option.map_some, List.nil_append]
  refine ⟨model, _, hsend, ?_⟩
  refine h.move h.last (fun id hid => ?_) (fun hnot => absurd hdmt (hnot ▸ Bool.false_ne_true))
    (fun pid' id => ?_) (fun pid' id => ?_) (fun tid model' hmem => ?_) (fun tid model' heq => ?_)
    fun id tid model' hne hid => ?_
  · rw [Function.update_apply]
    split
    · next heq =>
        subst heq
        exact (hspot ▸ h.situation _ hid).mail
    · exact h.situation id hid
  · dsimp only
    rw [updateEntry_apply]
    by_cases hid : id = c.taskId
    · subst hid
      by_cases hpid : pid' = pid
      · rw [if_pos ⟨hpid, rfl⟩, if_pos rfl, Spot.store_mailed]
      · rw [if_neg fun heq => hpid heq.1, if_pos rfl, h.store, hspot, Spot.store_leaving,
          if_neg hpid, Spot.store_mailed]
    · rw [if_neg fun heq => hid heq.2, if_neg hid]
  · by_cases hpid : pid' = pid
    · subst hpid
      have hqueue := h.queue pid' id
      simp only [Function.update_self]
      by_cases hid : id = c.taskId
      · subst hid
        rw [hcommands, List.cons_append, hspot, Spot.transfers_leaving, if_pos rfl] at hqueue
        rw [if_pos rfl, Spot.transfers_mailed]
        simp only [List.filter_cons, decide_true, if_true] at hqueue
        exact (List.cons.inj hqueue).2
      · rw [if_neg hid, hcommands, List.cons_append]
        simp only [List.filter_cons, Ne.symm hid, decide_false, Bool.false_eq_true, if_false]
    · simp only [Function.update_of_ne hpid]
      split
      · next hid =>
          rw [hid, h.queue, hspot, Spot.transfers_leaving, if_neg hpid, Spot.transfers_mailed]
      · rfl
  · dsimp only at hmem
    rw [Function.update_apply] at hmem
    split at hmem
    · next heq => exact .inl (by rw [heq, List.mem_singleton.mp hmem])
    · next hne =>
        obtain ⟨id, hid⟩ := h.mailbox tid model' hmem
        refine .inr ⟨id, ?_, hid⟩
        rintro rfl
        cases hid.symm.trans hspot
  · obtain ⟨rfl, rfl⟩ := Spot.mailed.inj heq
    exact Function.update_self ..
  · refine Function.update_of_ne ?_ ..
    rintro rfl
    exact hother hid

/-- The leader of one task has loaded or dumped its model. -/
theorem Delivers.lead {out : List (TransferEvent M)} {leader : Option (Instance × Stage M)}
    {e : TransferEvent M} {sp : Spot M} (h : Delivers ids dmt history (lastModel out) x spot)
    (hmodel : e.model = some id)
    (hnew : Situation ids id x.system.processes
      (Function.update (fun pid => x.leaders pid id) pid leader) (lastInstance history id) (some e) sp)
    (id' : ℕ) (hid' : dmt id' = true) :
    Situation ids id' x.system.processes
      (fun pid' => updateEntry x.leaders pid id leader pid' id') (lastInstance history id')
      (lastModel (out ++ [e]) id') (Function.update spot id sp id') := by
  rw [lastModel_snoc hmodel]
  by_cases hid : id' = id
  · subst hid
    rw [Function.update_self, if_pos rfl, updateEntry_self]
    exact hnew
  · rw [Function.update_of_ne hid, if_neg hid, updateEntry_of_ne hid]
    exact h.situation id' hid'

/-- The model of a task is taken from a mailbox, or was nowhere. -/
theorem Delivers.take {models' : ℕ → Option (TransferEvent M)} {mailbox : ℕ → List M}
    {leaders : ℕ → ℕ → Option (Instance × Stage M)} (h : Delivers ids dmt history models x spot)
    (hstore : ∀ pid, (spot id).store pid = none) (htransfers : ∀ pid, (spot id).transfers id pid = [])
    (hsituation : ∀ id', dmt id' = true → Situation ids id' x.system.processes
      (fun pid => leaders pid id') (lastInstance history id') (models' id')
      (Function.update spot id .nowhere id'))
    (hmailbox : ∀ tid model, model ∈ mailbox tid → ∃ id', id' ≠ id ∧ spot id' = .mailed tid model)
    (hkept : ∀ id' tid model, id' ≠ id → spot id' = .mailed tid model →
      mailbox tid = x.mailbox tid) :
    Delivers ids dmt history models' { x with mailbox := mailbox, leaders := leaders }
      (Function.update spot id .nowhere) := by
  refine h.move h.last hsituation (fun _ => rfl) (fun pid' id' => ?_) (fun pid' id' => ?_)
    (fun tid model hmem => .inr (hmailbox tid model hmem)) (fun _ _ heq => by cases heq) hkept
  · split
    · next hid => rw [hid, h.store, hstore, Spot.store_nowhere]
    · rfl
  · split
    · next hid => rw [hid, h.queue, htransfers, Spot.transfers_nowhere]
    · rfl

/-- **`Load`**: the model is the one that was dumped. -/
theorem Delivers.load {out : List (TransferEvent M)} {stored : M} {x' : Transfers σ M}
    {o : List (TransferEvent M)} (h : Delivers ids dmt history (lastModel out) x spot)
    (hagrees : ∀ pid, (x.system.processes pid).Agrees ids pid history)
    (hone : ∀ tid, (holders history tid).length ≤ 1) (hdmt : dmt id = true)
    (hstep : x.load pid id stored = some (x', o)) : ∃ e, o = [e] ∧ e.model = some id ∧
      HandedOver out e ∧ Delivers ids dmt history (lastModel (out ++ [e])) x'
        (Function.update spot id .nowhere) := by
  unfold Transfers.load at hstep
  split at hstep
  · next instance_ hleader =>
      obtain ⟨tid, rest, hget, howed, hload⟩ := (h.situation id hdmt).load hleader
      rcases howed.cases with ⟨hepoch, hspot, hlast⟩ | ⟨epoch, model, hepoch, hlast, hspot⟩
      · rw [if_pos hepoch] at hstep
        obtain ⟨rfl, rfl⟩ := Prod.mk.inj (Option.some.inj hstep)
        refine ⟨_, rfl, rfl, by rw [hepoch]; exact hlast, ?_⟩
        refine h.take (fun _ => hspot ▸ rfl) (fun _ => hspot ▸ rfl) (h.lead rfl (hload stored))
          (fun tid' model hmem => ?_) fun _ _ _ _ _ => rfl
        obtain ⟨id', hid'⟩ := h.mailbox tid' model hmem
        refine ⟨id', ?_, hid'⟩
        rintro rfl
        cases hid'.symm.trans hspot
      · have hbound : (spot id).Bound tid := by
          rcases hspot with ⟨pid', hspot⟩ | hspot
          · exact .inl ⟨pid', model, hspot⟩
          · exact .inr ⟨model, hspot⟩
        have hpositive : instance_.epoch ≠ 0 := hepoch ▸ Nat.succ_ne_zero _
        rw [if_neg hpositive, hget] at hstep
        simp only [List.head?_cons, Option.bind_eq_bind, Option.bind_some] at hstep
        split at hstep
        · cases hstep
        · next model' rest' hmail =>
            obtain ⟨rfl, rfl⟩ := Prod.mk.inj (Option.some.inj hstep)
            -- the mailbox has the model of this task, and no other one
            obtain ⟨id', hid'⟩ := h.mailbox tid model' (hmail ▸ List.mem_cons_self ..)
            obtain rfl := h.exclusive hagrees hone (.inr ⟨model', hid'⟩) hbound
            have hsame : model' = model := by
              rcases hspot with ⟨pid', hspot⟩ | hspot
              · cases hid'.symm.trans hspot
              · exact (Spot.mailed.inj (hid'.symm.trans hspot)).2
            subst hsame
            obtain ⟨-, rfl⟩ := List.cons.inj (hmail.symm.trans (h.mailed id' tid model' hid'))
            refine ⟨_, rfl, rfl, by rw [hepoch]; exact hlast, ?_⟩
            refine h.take (fun _ => hid' ▸ rfl) (fun _ => hid' ▸ rfl) (h.lead rfl (hload model'))
              (fun tid' model hmem => ?_) fun id'' tid' model hne hid'' => ?_
            · rw [Function.update_apply] at hmem
              split at hmem
              · cases hmem
              · next hne =>
                  obtain ⟨id'', hid''⟩ := h.mailbox tid' model hmem
                  refine ⟨id'', ?_, hid''⟩
                  rintro rfl
                  exact hne (Spot.mailed.inj (hid''.symm.trans hid')).1
            · refine Function.update_of_ne ?_ ..
              rintro rfl
              exact hne (h.exclusive hagrees hone (.inr ⟨model, hid''⟩) hbound)
  · cases hstep

/-- **`Dump`**: the model was loaded by the same leader, and `insert` does not find another one in the
store. -/
theorem Delivers.dump {out : List (TransferEvent M)} {model : M} {x' : Transfers σ M}
    {o : List (TransferEvent M)} (h : Delivers ids dmt history (lastModel out) x spot)
    (hdmt : dmt id = true) (hstep : x.dump pid id model = some (x', o)) :
    ∃ e sp, o = [e] ∧ e.model = some id ∧ HandedOver out e ∧
      Delivers ids dmt history (lastModel (out ++ [e])) x' (Function.update spot id sp) := by
  unfold Transfers.dump at hstep
  split at hstep
  · next instance_ loaded hleader =>
      obtain ⟨hlast, hspot, -, hdump⟩ := (h.situation id hdmt).dump hleader
      obtain ⟨rfl, rfl⟩ := Prod.mk.inj (Option.some.inj hstep)
      refine ⟨_, .after instance_ pid model, rfl, rfl, ⟨loaded, hlast⟩, ?_⟩
      have hnone : ∀ pid', x.store pid' id = none := fun pid' => by
        rw [h.store, hspot, Spot.store_nowhere]
      refine h.move h.last (h.lead rfl (hdump model))
        (fun hnot => absurd hdmt (hnot ▸ Bool.false_ne_true)) (fun pid' id' => ?_)
        (fun pid' id' => ?_) (fun tid' model' hmem => ?_) (fun tid' model' heq => ?_)
        fun _ _ _ _ _ => rfl
      · simp only [hnone, Option.isNone_none, and_true]
        rcases Spot.after_eq instance_ pid model with ⟨hafter, hlt⟩ | ⟨hafter, hlt⟩
        · rw [if_pos hlt, hafter, updateEntry_apply, Spot.store_stored]
          by_cases hid : id' = id
          · subst hid
            simp only [and_true, if_true, hnone]
          · simp only [hid, and_false, if_false]
        · rw [if_neg hlt, hafter, Spot.store_nowhere]
          split
          · next hid => rw [hid, hnone]
          · rfl
      · by_cases hid : id' = id
        · rw [if_pos hid, Spot.after_transfers, hid]
          exact (h.queue pid' id).trans (hspot ▸ rfl)
        · exact (if_neg hid).symm
      · obtain ⟨id', hid'⟩ := h.mailbox tid' model' hmem
        refine .inr ⟨id', ?_, hid'⟩
        rintro rfl
        cases hid'.symm.trans hspot
      · exact absurd heq (Spot.after_ne_mailed instance_ pid model tid' model')
  · cases hstep

/-! ### The instances are sent to the workers -/

/-- The cluster manager has sent an instance, or nothing. -/
theorem Delivers.announce_one (h : Delivers ids dmt history models x spot)
    (hagrees : ∀ pid, (x.system.processes pid).Agrees ids pid history)
    (hfresh : FreshIssue info history e) (hnext : Consecutive history e)
    (hgathered : Gathered dmt history e) : ∃ last transfers spot',
      sendInstances info dmt x.lastInstance (.scheduled e) = some (last, transfers) ∧
      Delivers ids dmt (history ++ [e]) models (x.announced (fun pid =>
        (x.system.processes pid).deliver (workerMessage (.scheduled e)).toList) last transfers)
        spot' := by
  by_cases he : ∃ instance_, e = .issued instance_
  · obtain ⟨instance_, rfl⟩ := he
    have hlast : Function.update x.lastInstance instance_.id (some instance_) =
        lastInstance (history ++ [.issued instance_]) := by
      funext id
      rw [lastInstance_issued, Function.update_apply, h.last]
      exact if_congr eq_comm rfl rfl
    have hother : ∀ id, dmt id = true → instance_.id ≠ id →
        Situation ids id (fun pid => (x.system.processes pid).deliver [.task instance_])
          (fun pid => x.leaders pid id) (lastInstance (history ++ [.issued instance_]) id)
          (models id) (spot id) := fun id hid hne => by
      rw [lastInstance_issued, if_neg hne]
      exact (h.situation id hid).announce_other hne (fun _ => rfl) fun _ => rfl
    by_cases hdmt : dmt instance_.id = true
    · have hinbox : ∀ pid, ((x.system.processes pid).deliver [.task instance_]).inbox =
          (x.system.processes pid).inbox ++ [.task instance_] := fun _ => rfl
      obtain ⟨transfers, sp, hsend, hsituation, hsent⟩ :=
        (h.situation _ hdmt).issue hagrees hfresh hnext hgathered hdmt hinbox
      refine ⟨_, transfers, Function.update spot instance_.id sp, ?_, h.move hlast (fun id hid => ?_)
        (fun hnot => absurd hdmt (hnot ▸ Bool.false_ne_true)) (fun pid id => ?_) (fun pid id => ?_)
        (fun tid model hmem => ?_) (fun tid model heq => absurd heq (hsent.not_mailed tid model).2)
        fun _ _ _ _ _ => rfl⟩
      · rw [sendInstances, h.last, hsend]
        rfl
      · rw [Function.update_apply]
        split
        · next heq =>
            subst heq
            rw [lastInstance_issued, if_pos rfl]
            exact hsituation
        · next hne => exact hother id hid (Ne.symm hne)
      · split
        · next heq =>
            rw [hsent.store, heq]
            exact h.store pid instance_.id
        · rfl
      · have hqueue : (x.commands pid ++ Transfers.signal x.signals transfers pid).filter
            (·.taskId = id) = (spot id).transfers id pid ++
              if id = instance_.id then sp.transfers instance_.id pid else [] := by
          rw [Transfers.signal, ← List.append_assoc, List.filter_append, h.queue,
            (hsent.transfers id pid).1]
        refine hqueue.trans ?_
        split
        · next heq => rw [heq, (hsent.transfers id pid).2, List.nil_append]
        · rw [List.append_nil, h.queue]
      · obtain ⟨id, hid⟩ := h.mailbox tid model hmem
        refine .inr ⟨id, ?_, hid⟩
        rintro rfl
        exact (hsent.not_mailed tid model).1 hid
    · refine ⟨_, [], spot, ?_, h.congr hlast (fun id hid => ?_) rfl (fun pid => ?_) rfl⟩
      · rw [sendInstances, sendLastInstance, if_pos (.inr (Bool.eq_false_of_not_eq_true hdmt))]
        rfl
      · exact hother id hid fun heq => hdmt (heq ▸ hid)
      · exact congrArg _ (List.append_nil _)
  · have hnot : ∀ instance_, e ≠ .issued instance_ := fun instance_ heq => he ⟨instance_, heq⟩
    have hmessage : workerMessage (.scheduled e) = none := workerMessage_eq_none hnot
    have hlast : lastInstance (history ++ [e]) = lastInstance history :=
      funext fun id => lastInstance_snoc hnot id
    refine ⟨x.lastInstance, [], spot, ?_, h.congr (hlast ▸ h.last) (fun id hid => ?_) rfl
      (fun pid => congrArg _ (List.append_nil _)) rfl⟩
    · cases e with
      | issued instance_ => exact absurd rfl (hnot instance_)
      | _ => rfl
    · rw [hlast, hmessage]
      refine (h.situation id hid).frame (fun pid _ _ => ?_) fun _ _ _ hth => .inl hth
      exact iff_of_eq (congrArg (_ ∈ ·) (List.append_nil _))

/-- **Instances are sent to the workers**, and `send_last_instance` passes its assertions. -/
theorem Delivers.announce {instances : List SchedEvent}
    (h : Delivers ids dmt history models x spot)
    (hagrees : ∀ pid, (x.system.processes pid).Agrees ids pid history)
    (hfresh : Throughout (FreshIssue info) (history ++ instances))
    (hnext : Throughout Consecutive (history ++ instances))
    (hgathered : Throughout (Gathered dmt) (history ++ instances))
    (hnot : ∀ id tid, .finished id tid ∉ instances) : ∃ last transfers spot',
      run (sendInstances info dmt) x.lastInstance (instances.map .scheduled) =
        some (last, transfers) ∧
      Delivers ids dmt (history ++ instances) models (x.announced (fun pid =>
        (x.system.processes pid).deliver
          ((instances.map ClusterEvent.scheduled).filterMap workerMessage)) last transfers) spot' := by
  induction instances using List.reverseRecOn with
  | nil =>
      refine ⟨_, [], spot, rfl, ?_⟩
      rw [List.append_nil]
      exact x.announced_nothing.symm ▸ h
  | append_singleton instances e ih =>
      rw [← List.append_assoc] at hfresh hnext hgathered ⊢
      obtain ⟨hfresh, hfresh'⟩ := throughout_snoc.mp hfresh
      obtain ⟨hnext, hnext'⟩ := throughout_snoc.mp hnext
      obtain ⟨hgathered, hgathered'⟩ := throughout_snoc.mp hgathered
      have hnot' : ∀ id tid, .finished id tid ∉ instances := fun id tid hmem =>
        hnot id tid (List.mem_append_left _ hmem)
      obtain ⟨last, transfers, spot', hrun, h'⟩ := ih hfresh hnext hgathered hnot'
      obtain ⟨last', transfers', spot'', hsend, h''⟩ :=
        h'.announce_one (fun pid => (hagrees pid).announce hfresh hnot') hfresh' hnext' hgathered'
      refine ⟨last', transfers ++ transfers', spot'', ?_, ?_⟩
      · rw [List.map_append]
        exact run_snoc hrun hsend
      · rw [Transfers.announced_announced] at h''
        rw [List.map_append, List.filterMap_append, filterMap_workerMessage_singleton]
        simp only [← Process.deliver_deliver]
        exact h''

/-! ### The steps of the processes -/

/-- A step of a process that leaves the messages of the cluster manager and the threads alone. -/
theorem Delivers.quiet {p : Process} (h : Delivers ids dmt history models x spot)
    (hinbox : p.inbox = (x.system.processes pid).inbox)
    (hrunning : p.running = (x.system.processes pid).running) (hid : dmt id = true) :
    Situation ids id (Function.update x.system.processes pid p) (fun pid => x.leaders pid id)
      (lastInstance history id) (models id) (spot id) :=
  (h.situation id hid).update hinbox fun _ _ hth => .inl (hrunning ▸ hth)

/-- **The worker receives a message**: the leader of an instance starts. -/
theorem Delivers.receive {p : Process} (h : Delivers ids dmt history models x spot)
    (hagrees : (x.system.processes pid).Agrees ids pid history)
    (hstep : (x.system.processes pid).receive ids pid = some p) (hid : dmt id = true) :
    Situation ids id (Function.update x.system.processes pid p)
      (fun pid' => x.startLeader (.receive pid) pid' id) (lastInstance history id) (models id)
      (spot id) := by
  have hsituation := h.situation id hid
  unfold Process.receive at hstep
  split at hstep
  · split at hstep
    · cases hstep
    · next instance_ inbox hinbox =>
        obtain ⟨⟨r, started⟩, hrun, rfl⟩ := Option.map_eq_some_iff.mp hstep
        simp only [Transfers.startLeader, hinbox]
        rcases InstanceRunner.runInstance_cases hrun with ⟨hnil, -, rfl⟩ | ⟨units, -, hne, rfl, -⟩
        · rw [if_pos hnil]
          refine hsituation.receive_other hinbox (fun th hth => List.mem_append_left _ hth) ?_
          rintro _ ⟨⟩ -
          exact hnil
        · rw [if_neg hne]
          by_cases heq : instance_.id = id
          · subst heq
            rw [updateEntry_self]
            exact hsituation.receive hagrees hinbox rfl hne rfl
          · rw [updateEntry_of_ne (Ne.symm heq)]
            refine hsituation.receive_other hinbox (fun th hth => List.mem_append_left _ hth) ?_
            rintro _ ⟨⟩ hsame
            exact absurd hsame heq
    · next inbox hinbox =>
        obtain rfl := Option.some.inj hstep
        simp only [Transfers.startLeader, hinbox]
        exact hsituation.receive_other hinbox (fun _ hth => hth) (by rintro _ ⟨⟩)
  · cases hstep

/-- A thread that comes to its end has waited for the leader. -/
theorem Delivers.complete {p : Process} {n : ℕ} (h : Delivers ids dmt history models x spot)
    (hmay : x.mayStep dmt (.complete pid n) = true)
    (hstep : (x.system.processes pid).complete n = some p) (hid : dmt id = true) :
    Situation ids id (Function.update x.system.processes pid p) (fun pid => x.leaders pid id)
      (lastInstance history id) (models id) (spot id) := by
  refine (h.situation id hid).complete hstep ?_
  rintro th hth rfl
  simp only [Transfers.mayStep, hth, Option.map_some, Option.getD_some, Transfers.mayFinish, hid,
    Bool.not_true, Bool.false_or] at hmay
  split at hmay
  · next instance_ hleader => exact ⟨instance_, hleader⟩
  · cases hmay

/-! ### The steps of the cluster manager -/

/-- The workers are told that all tasks have finished. -/
theorem Delivers.exit {q : ℕ → Process} {last : ℕ → Option Instance}
    {transfers : List (ℕ × Transfer)}
    (h : Delivers ids dmt history models (x.announced q last transfers) spot) :
    Delivers ids dmt history models
      (x.announced (fun pid => (q pid).deliver [.finished]) last transfers) spot := by
  refine h.congr h.last (fun id hid => ?_) rfl (fun _ => rfl) rfl
  refine (h.situation id hid).frame (fun pid instance_ _ => ?_) fun _ _ _ hth => .inl hth
  have hmem : .task instance_ ∈ (q pid).inbox ++ [.finished] ↔ .task instance_ ∈ (q pid).inbox := by
    rw [List.mem_append, List.mem_singleton]
    exact or_iff_left WorkerMessage.noConfusion
  exact hmem

variable {S : TaskScheduler σ} {accepts : List SchedEvent → σ → List Task → Prop}
  {I : List SchedEvent → σ → Prop} {c : ClusterManager σ} {m : ClusterMessage}
  {outbox : List ClusterMessage} {q : ℕ → Process} {d : Draw} {o : List ClusterEvent}

/-- **The cluster manager handles a message.** -/
theorem Delivers.serve (hS : HandsOver dmt info S accepts I)
    (h : Delivers ids dmt history models x spot) (hconsistent : Consistent S I ids history x.system)
    (houtbox : (x.system.processes pid).outbox = m :: outbox)
    (hfair : ∀ tasks outbox, (x.system.processes pid).outbox = .init tasks :: outbox →
      accepts history x.system.manager.taskScheduler tasks)
    (hserve : ClusterManager.serve S x.system.manager (m, d) = some (c, o))
    (hq : q = Function.update x.system.processes pid
      { x.system.processes pid with outbox := outbox }) :
    ∃ last transfers spot', run (sendInstances info dmt) x.lastInstance o = some (last, transfers) ∧
      Delivers ids dmt (history ++ scheduled o) models
        (x.announced (fun pid => (q pid).deliver (o.filterMap workerMessage)) last transfers)
        spot' := by
  obtain ⟨e, s₁, hnot, hI, hagrees, -, -, hcases⟩ :=
    hconsistent.handle hS.toExclusive houtbox hfair hserve hq
  have hlast : lastInstance (history ++ [e]) = lastInstance history :=
    funext fun id => lastInstance_snoc hnot id
  have hfirst : Delivers ids dmt (history ++ [e]) models (x.announced q x.lastInstance []) spot := by
    refine h.congr (hlast ▸ h.last) (fun id hid => ?_) rfl (fun pid => ?_) rfl
    · rw [hlast]
      exact hq ▸ h.quiet rfl rfl hid
    · exact congrArg _ (List.append_nil _)
  have hnone := workerMessage_eq_none hnot
  have hsend : run (sendInstances info dmt) x.lastInstance [.scheduled e] =
      some (x.lastInstance, []) := by
    cases e with
    | issued instance_ => exact absurd rfl (hnot instance_)
    | _ => rfl
  rcases hcases with ⟨instances, hextract, rfl⟩ | ⟨-, rfl⟩
  · have hI' := hS.extracted hI hextract
    obtain ⟨last, transfers, spot', hrun, h'⟩ := hfirst.announce hagrees (hS.fresh hI')
      (hS.consecutive hI') (hS.gathered hI') (hS.events hI hextract)
    rw [Transfers.announced_announced, List.nil_append] at h'
    have hscheduled : scheduled (.scheduled e :: ClusterManager.extracted S c.taskScheduler
        instances) = e :: instances :=
      congrArg (e :: ·) (scheduled_extracted S c.taskScheduler instances)
    rw [hscheduled, List.append_cons, List.filterMap_cons, hnone, ClusterManager.extracted]
    by_cases hdone : S.isFinished c.taskScheduler = true
    · rw [if_pos hdone]
      refine ⟨last, transfers, spot', ?_, ?_⟩
      · have hexit : sendInstances info dmt last .exitSignal = some (last, []) := rfl
        refine (run_trans hsend (run_snoc hrun hexit)).trans ?_
        rw [List.nil_append, List.append_nil]
      · rw [List.filterMap_append]
        simp only [← Process.deliver_deliver]
        exact h'.exit
    · rw [if_neg hdone, List.append_nil]
      exact ⟨last, transfers, spot', run_trans hsend hrun, h'⟩
  · refine ⟨x.lastInstance, [], spot, hsend, ?_⟩
    rw [List.filterMap_cons, hnone, List.filterMap_nil]
    simp only [Process.deliver_nil]
    exact hfirst

/-- **A step of the cluster manager or of a process**: the assertions of `send_last_instance` hold. -/
theorem Delivers.system {i : Move} {sys : System σ} (hS : HandsOver dmt info S accepts I)
    (h : Delivers ids dmt history models x spot) (hconsistent : Consistent S I ids history x.system)
    (hmay : x.mayStep dmt i = true) (hfair : i.Fair accepts history x.system)
    (hstep : System.step S ids x.system i = some (sys, o)) :
    ∃ last transfers spot', run (sendInstances info dmt) x.lastInstance o = some (last, transfers) ∧
      Delivers ids dmt (history ++ scheduled o) models { x with
        system := sys
        lastInstance := last
        signals := Transfers.signal x.signals transfers
        leaders := x.startLeader i } spot' := by
  have hprocess : ∀ {pid} {p : Option Process}, x.system.atProcess pid p = some (sys, o) →
      (∀ p', p = some p' → ∀ id, dmt id = true →
        Situation ids id (Function.update x.system.processes pid p')
          (fun pid => x.startLeader i pid id) (lastInstance history id) (models id) (spot id)) →
      ∃ last transfers spot', run (sendInstances info dmt) x.lastInstance o =
        some (last, transfers) ∧
      Delivers ids dmt (history ++ scheduled o) models { x with
        system := sys
        lastInstance := last
        signals := Transfers.signal x.signals transfers
        leaders := x.startLeader i } spot' := by
    intro pid p hat hp
    obtain ⟨p', hp', heq⟩ := Option.map_eq_some_iff.mp hat
    obtain ⟨rfl, rfl⟩ := Prod.mk.inj heq
    refine ⟨x.lastInstance, [], spot, rfl, ?_⟩
    have hnil : scheduled [] = [] := rfl
    rw [hnil, List.append_nil, Transfers.signal_nil]
    exact h.congr h.last (hp p' hp') rfl (fun _ => rfl) rfl
  cases i with
  | submit tasks =>
      refine hprocess hstep fun p' hp' id hid => ?_
      unfold Process.submit at hp'
      split at hp'
      · obtain rfl := Option.some.inj hp'
        exact h.quiet rfl rfl hid
      · cases hp'
  | enter pid =>
      simp only [System.step] at hstep
      split at hstep
      · cases hstep
      · refine hprocess hstep fun p' hp' id hid => ?_
        unfold Process.enter at hp'
        split at hp'
        · obtain rfl := Option.some.inj hp'
          exact h.quiet rfl rfl hid
        · cases hp'
  | receive pid =>
      exact hprocess hstep fun p' hp' id hid => h.receive (hconsistent.agrees pid) hp' hid
  | complete pid n => exact hprocess hstep fun p' hp' id hid => h.complete hmay hp' hid
  | report pid n =>
      refine hprocess hstep fun p' hp' id hid => ?_
      unfold Process.report at hp'
      split at hp'
      · obtain ⟨th, -, hp'⟩ := Option.bind_eq_some_iff.mp hp'
        obtain ⟨r, -, hp'⟩ := Option.bind_eq_some_iff.mp hp'
        obtain rfl := Option.some.inj hp'
        exact h.quiet rfl rfl hid
      · cases hp'
  | remove pid =>
      refine hprocess hstep fun p' hp' id hid => ?_
      unfold Process.remove at hp'
      split at hp'
      · simp only at hp'
        split at hp'
        · obtain ⟨r, -, rfl⟩ := Option.map_eq_some_iff.mp hp'
          exact h.quiet rfl rfl hid
        · obtain rfl := Option.some.inj hp'
          exact h.quiet rfl rfl hid
      · cases hp'
  | manage pid d =>
      simp only [System.step] at hstep
      split at hstep
      · cases hstep
      · next m outbox houtbox =>
          obtain ⟨⟨c, o₁⟩, hserve, hstep⟩ := Option.bind_eq_some_iff.mp hstep
          obtain ⟨rfl, rfl⟩ := Prod.mk.inj (Option.some.inj hstep)
          obtain ⟨last, transfers, spot', hrun, h'⟩ := h.serve hS hconsistent houtbox hfair hserve rfl
          exact ⟨last, transfers, spot', hrun,
            h'.congr h'.last h'.situation rfl (fun _ => rfl) rfl⟩

end Delivers

/-! ## All runs -/

/-- The scheduler keeps its invariant and agrees with the processes, the models are where they are
taken to be, and have been handed over. -/
structure Handing {σ M : Type} {info : WorkerInfo} (S : TaskScheduler σ)
    (I : List SchedEvent → σ → Prop) (ids : LocalIds info) (dmt : ℕ → Bool)
    (out : List (TransferEvent M)) (x : Transfers σ M) : Prop where
  consistent : Consistent S I ids (issued out) x.system
  delivers : ∃ spot, Delivers ids dmt (issued out) (lastModel out) x spot
  handed : Throughout HandedOver out

section Handing

variable {σ M : Type} {info : WorkerInfo} {S : TaskScheduler σ} {ids : LocalIds info}
  {dmt : ℕ → Bool} {accepts : List SchedEvent → σ → List Task → Prop}
  {I : List SchedEvent → σ → Prop} {out o : List (TransferEvent M)} {x x' : Transfers σ M}
  {i : TransferMove M}

theorem issued_cluster (out : List (TransferEvent M)) (o : List ClusterEvent) :
    issued (out ++ o.map .cluster) = issued out ++ scheduled o := by
  rw [issued, issued, List.filterMap_append, scheduled_append, List.filterMap_map]
  exact congrArg (fun o => _ ++ scheduled o) List.filterMap_some

theorem issued_model {e : TransferEvent M} {id : ℕ} (he : e.model = some id) :
    issued (out ++ [e]) = issued out := by
  cases e with
  | cluster _ => cases he
  | loaded _ _ _ => rw [issued, List.filterMap_append]; exact congrArg scheduled (List.append_nil _)
  | dumped _ _ _ => rw [issued, List.filterMap_append]; exact congrArg scheduled (List.append_nil _)

/-- What the cluster manager does is no model that is loaded or dumped. -/
theorem handedOver_cluster (h : Throughout HandedOver out) (o : List ClusterEvent) :
    Throughout HandedOver (out ++ o.map .cluster) := by
  induction o using List.reverseRecOn with
  | nil => rwa [List.map_nil, List.append_nil]
  | append_singleton o e ih =>
      rw [List.map_append, List.map_singleton, ← List.append_assoc]
      exact throughout_snoc.mpr ⟨ih, trivial⟩

/-- **Every step** hands the models over. -/
theorem Handing.step (hS : HandsOver dmt info S accepts I) (h : Handing S I ids dmt out x)
    (hfair : i.Fair accepts (issued out) x) (hstep : x.step S ids dmt i = some (x', o)) :
    Handing S I ids dmt (out ++ o) x' := by
  obtain ⟨hconsistent, ⟨spot, hdelivers⟩, hhanded⟩ := h
  have hone := hconsistent.one hS.toExclusive
  -- a step that nothing is seen of, and one by which a model is loaded or dumped
  have hsilent : ∀ {y : Option (Transfers σ M)}, y.map (·, []) = some (x', o) →
      (∀ x', y = some x' → x'.system = x.system ∧
        ∃ spot', Delivers ids dmt (issued out) (lastModel out) x' spot') →
      Handing S I ids dmt (out ++ o) x' := by
    intro y hy hkept
    obtain ⟨y, hy', heq⟩ := Option.map_eq_some_iff.mp hy
    obtain ⟨rfl, rfl⟩ := Prod.mk.inj heq
    obtain ⟨hsystem, hdelivers'⟩ := hkept y hy'
    rw [List.append_nil]
    exact ⟨hsystem ▸ hconsistent, hdelivers', hhanded⟩
  have hmodel : ∀ {e id spot'}, o = [e] → e.model = some id → HandedOver out e →
      Delivers ids dmt (issued out) (lastModel (out ++ [e])) x' spot' → x'.system = x.system →
      Handing S I ids dmt (out ++ o) x' := by
    rintro e id spot' rfl he hover hdelivers' hsystem
    refine ⟨?_, ⟨spot', ?_⟩, throughout_snoc.mpr ⟨hhanded, hover⟩⟩
    · rw [issued_model he, hsystem]
      exact hconsistent
    · rwa [issued_model he]
  cases i with
  | system i =>
      simp only [Transfers.step] at hstep
      split at hstep
      · next hmay =>
          obtain ⟨⟨sys, o₁⟩, hsys, hstep⟩ := Option.bind_eq_some_iff.mp hstep
          obtain ⟨last, transfers, spot', hrun, hdelivers'⟩ :=
            hdelivers.system hS hconsistent hmay hfair hsys
          simp only [hrun, Option.bind_eq_bind, Option.bind_some] at hstep
          obtain ⟨rfl, rfl⟩ := Prod.mk.inj (Option.some.inj hstep)
          refine ⟨?_, ⟨spot', ?_⟩, handedOver_cluster hhanded o₁⟩
          · rw [issued_cluster]
            exact hconsistent.step hS.toExclusive hfair hsys
          · rw [issued_cluster, lastModel_cluster]
            exact hdelivers'
      · cases hstep
  | forward pid =>
      exact hsilent hstep fun x' hx' => ⟨Transfers.forward_system hx', spot, hdelivers.forward hx'⟩
  | send pid =>
      refine hsilent hstep fun x' hx' => ⟨Transfers.send_system hx', ?_⟩
      obtain ⟨c, commands, hcommands⟩ := Transfers.send_cases hx'
      obtain ⟨model, y, hy, hdelivers'⟩ := hdelivers.send hconsistent.agrees hone hcommands
      obtain rfl := Option.some.inj (hx'.symm.trans hy)
      exact ⟨_, hdelivers'⟩
  | load pid id stored =>
      simp only [Transfers.step] at hstep
      split at hstep
      · next hdmt =>
          obtain ⟨e, rfl, he, hover, hdelivers'⟩ :=
            hdelivers.load hconsistent.agrees hone hdmt hstep
          exact hmodel rfl he hover hdelivers' (Transfers.load_system hstep)
      · cases hstep
  | dump pid id model =>
      simp only [Transfers.step] at hstep
      split at hstep
      · next hdmt =>
          obtain ⟨e, sp, rfl, he, hover, hdelivers'⟩ := hdelivers.dump hdmt hstep
          exact hmodel rfl he hover hdelivers' (Transfers.dump_system hstep)
      · cases hstep

/-- **Every run** hands the models over. -/
theorem TransferRun.handing {s : σ} {countThreshold : ℕ} (hS : HandsOver dmt info S accepts I)
    (hI : I [] s) (hdone : S.isFinished s = true)
    (h : TransferRun S ids dmt accepts s countThreshold out x) : Handing S I ids dmt out x := by
  obtain ⟨moves, halong, hrun⟩ := h
  have hstart : Handing S I ids dmt ([] : List (TransferEvent M)) (.start s countThreshold) :=
    ⟨consistent_start hI hdone ids countThreshold, ⟨_, delivers_start s countThreshold ids dmt⟩,
      throughout_nil _⟩
  refine run_along (I := fun out x => Handing S I ids dmt out x) ?_ hstart halong hrun
  intro out x i x' o hx hfair hstep
  exact hx.step hS hfair hstep

/-- **No model is lost**: `Pop` finds the model that a message is about, `send_last_instance` passes
its assertions, `insert` finds no other model in the store, and a leader that waits for its model has
it in its mailbox or is going to be sent it; and when all tasks have finished, nothing is left. -/
structure NeverLost (S : TaskScheduler σ) (ids : LocalIds info) (dmt : ℕ → Bool)
    (accepts : List SchedEvent → σ → List Task → Prop) (out : List (TransferEvent M))
    (x : Transfers σ M) : Prop where
  sent : ∀ pid, x.commands pid ≠ [] → ∃ x', x.send pid = some x'
  signalled : ∀ i sys o, x.mayStep dmt i = true → i.Fair accepts (issued out) x.system →
    System.step S ids x.system i = some (sys, o) →
    ∃ x', x.step S ids dmt (.system i) = some (x', o.map .cluster)
  inserted : ∀ pid id instance_ model, dmt id = true →
    x.leaders pid id = some (instance_, .working model) → x.store pid id = none
  owed : ∀ pid id instance_, dmt id = true → x.leaders pid id = some (instance_, .fresh) →
    instance_.epoch ≠ 0 → ∃ tid rest, instance_.getThreads pid = (tid, 0) :: rest ∧
      (x.mailbox tid ≠ [] ∨
        ∃ pid', (⟨tid, id⟩ : Transfer) ∈ x.commands pid' ++ x.signals pid')
  returned : (x.system.processes 0).phase = .outside →
    (∀ pid id, x.store pid id = none) ∧ (∀ pid, x.commands pid = [] ∧ x.signals pid = []) ∧
      ∀ tid, x.mailbox tid = []

theorem Handing.neverLost (hS : HandsOver dmt info S accepts I) (h : Handing S I ids dmt out x) :
    NeverLost S ids dmt accepts out x := by
  obtain ⟨hconsistent, ⟨spot, hdelivers⟩, -⟩ := h
  have hone := hconsistent.one hS.toExclusive
  refine ⟨fun pid hne => ?_, fun i sys o hmay hfair hstep => ?_,
    fun pid id instance_ model hdmt hleader => ?_,
    fun pid id instance_ hdmt hleader hepoch => ?_, fun hphase => ?_⟩
  · obtain ⟨c, commands, hcommands⟩ := List.exists_cons_of_ne_nil hne
    obtain ⟨model, x', hsend, -⟩ := hdelivers.send hconsistent.agrees hone hcommands
    exact ⟨x', hsend⟩
  · obtain ⟨last, transfers, spot', hrun, -⟩ := hdelivers.system hS hconsistent hmay hfair hstep
    refine ⟨{ x with
      system := sys
      lastInstance := last
      signals := Transfers.signal x.signals transfers
      leaders := x.startLeader i }, ?_⟩
    simp only [Transfers.step, if_pos hmay, hstep, hrun, Option.bind_eq_bind, Option.bind_some]
  · obtain ⟨-, hspot, -⟩ := (hdelivers.situation id hdmt).dump hleader
    rw [hdelivers.store, hspot, Spot.store_nowhere]
  · obtain ⟨tid, rest, hget, howed, -⟩ := (hdelivers.situation id hdmt).load hleader
    refine ⟨tid, rest, hget, ?_⟩
    rcases howed.cases with ⟨hzero, -⟩ | ⟨epoch, model, -, -, ⟨pid', hspot⟩ | hspot⟩
    · exact absurd hzero hepoch
    · have hqueue := hdelivers.queue pid' id
      rw [hspot, Spot.transfers_leaving, if_pos rfl] at hqueue
      have hmem : (⟨tid, id⟩ : Transfer) ∈
          (x.commands pid' ++ x.signals pid').filter (·.taskId = id) :=
        hqueue ▸ List.mem_singleton_self _
      exact .inr ⟨pid', (List.mem_filter.mp hmem).1⟩
    · rw [hdelivers.mailed id tid model hspot]
      exact .inl (List.cons_ne_nil _ _)
  · have hdone := hconsistent.session.finished (.inl hphase)
    have hnowhere : ∀ id, spot id = .nowhere := by
      intro id
      by_cases hdmt : dmt id = true
      · obtain ⟨-, -, hleft⟩ := (hdelivers.situation id hdmt).rests hconsistent.agrees
          (hS.idle hconsistent.scheduler hdone id)
        have hover := hS.completed hconsistent.scheduler hdone id
        exact hleft.ended hover
      · exact hdelivers.nowhere id (Bool.eq_false_of_not_eq_true hdmt)
    have hqueue : ∀ pid, x.commands pid ++ x.signals pid = [] := fun pid =>
      List.eq_nil_iff_forall_not_mem.mpr fun c hc => by
        obtain ⟨model, hspot⟩ := hdelivers.leaving hc
        cases (hnowhere c.taskId).symm.trans hspot
    refine ⟨fun pid id => ?_, fun pid => List.append_eq_nil_iff.mp (hqueue pid), fun tid => ?_⟩
    · rw [hdelivers.store, hnowhere, Spot.store_nowhere]
    · refine List.eq_nil_iff_forall_not_mem.mpr fun model hmem => ?_
      obtain ⟨id, hspot⟩ := hdelivers.mailbox tid model hmem
      cases (hnowhere id).symm.trans hspot

end Handing

/-! ## The three schedulers -/

section Schedulers

variable {M : Type} {info : WorkerInfo}

/-- A property of everything that the cluster manager, the processes and the leaders can do, with the
three schedulers that never rebook, when the submitted tasks are new and those that hand their models
over are local. -/
def InAllTransfers (M : Type) (ids : LocalIds info) (dmt : ℕ → Bool) (countThreshold : ℕ)
    (P : ∀ {σ : Type}, TaskScheduler σ → (List SchedEvent → σ → List Task → Prop) →
      List (TransferEvent M) → Transfers σ M → Prop) : Prop :=
  (∀ out x, TransferRun (SequentialTaskScheduler.scheduler info) ids dmt
    (Transferable dmt AnyTasks) (.start info) countThreshold out x →
    P (SequentialTaskScheduler.scheduler info) (Transferable dmt AnyTasks) out x) ∧
  (∀ out x, TransferRun (GreedyTaskScheduler.scheduler info) ids dmt
    (Transferable dmt DistinctTasks) (.start info) countThreshold out x →
    P (GreedyTaskScheduler.scheduler info) (Transferable dmt DistinctTasks) out x) ∧
  (∀ out x, TransferRun (PriorityTaskScheduler.scheduler info) ids dmt
    (Transferable dmt IndexedTasks) (.start info) countThreshold out x →
    P (PriorityTaskScheduler.scheduler info) (Transferable dmt IndexedTasks) out x)

theorem inAllTransfers_of_handing (ids : LocalIds info) (dmt : ℕ → Bool) (countThreshold : ℕ)
    {P : ∀ {σ : Type}, TaskScheduler σ → (List SchedEvent → σ → List Task → Prop) →
      List (TransferEvent M) → Transfers σ M → Prop}
    (h : ∀ {σ : Type} {S : TaskScheduler σ} {accepts : List SchedEvent → σ → List Task → Prop}
      {I : List SchedEvent → σ → Prop} {out : List (TransferEvent M)} {x : Transfers σ M},
      HandsOver dmt info S accepts I → Handing S I ids dmt out x → P S accepts out x) :
    InAllTransfers M ids dmt countThreshold P := by
  refine ⟨fun out x hrun => ?_, fun out x hrun => ?_, fun out x hrun => ?_⟩
  · have hS := SequentialTaskScheduler.handsOver dmt info
    exact h hS (hrun.handing hS (SequentialTaskScheduler.lasts_start dmt info) rfl)
  · have hS := GreedyTaskScheduler.handsOver dmt info
    exact h hS (hrun.handing hS (GreedyTaskScheduler.lasts_start dmt info) rfl)
  · have hS := PriorityTaskScheduler.handsOver dmt info
    exact h hS (hrun.handing hS (PriorityTaskScheduler.lasts_start dmt info) rfl)

/-- **Models are handed over** from epoch to epoch. -/
theorem models_handed_over (M : Type) (ids : LocalIds info) (dmt : ℕ → Bool) (countThreshold : ℕ) :
    InAllTransfers M ids dmt countThreshold fun _ _ out _ => Throughout HandedOver out :=
  inAllTransfers_of_handing ids dmt countThreshold fun _ h => h.handed

/-- The first epoch runs on process `0` and the second one on process `1`; the model is `5` in the
`KVStore`, `6` after the first epoch and `7` after the second one. -/
def twoEpochs : List (TransferMove ℕ) :=
  [.system (.submit [⟨0, 2, 0, 1, .basic, true⟩]), .system (.enter 1), .system (.manage 0 .plain),
    .system (.receive 0), .system (.receive 1), .load 0 0 5, .dump 0 0 6, .system (.complete 0 0),
    .system (.report 0 0), .system (.remove 0), .system (.manage 0 .plain), .system (.receive 0),
    .system (.receive 1), .forward 0, .send 0, .load 1 0 5, .dump 1 0 7]

theorem models_handed_over_twoEpochs :
    ∃ out : List (TransferEvent ℕ), out.filter (fun e => e.model.isSome) =
      [.loaded 0 0 5, .dumped 0 0 6, .loaded 0 1 6, .dumped 0 1 7] ∧ Throughout HandedOver out := by
  have hrun : run (Transfers.step (SequentialTaskScheduler.scheduler (.oneEach 2))
      (sameIds (.oneEach 2)) fun id => id = 0) (.start (.start (.oneEach 2)) 1) twoEpochs =
      some (_, _) := rfl
  refine ⟨_, ?_, (models_handed_over ℕ _ _ 1).1 _ _ ⟨twoEpochs, ?_, hrun⟩⟩
  · rfl
  · apply along_cons rfl trivial
    apply along_cons rfl trivial
    refine along_cons rfl ?_ ?_
    · rintro _ _ ⟨⟩
      refine ⟨trivial, fun task htask => ?_, fun task htask => ?_⟩
      · obtain rfl := List.mem_singleton.mp htask
        decide
      · obtain rfl := List.mem_singleton.mp htask
        exact fun _ => ⟨rfl, rfl⟩
    iterate 7 apply along_cons rfl trivial
    refine along_cons rfl (by rintro _ _ ⟨⟩) ?_
    iterate 6 apply along_cons rfl trivial
    trivial

/-- **No model is lost.** -/
theorem models_never_lost (M : Type) (ids : LocalIds info) (dmt : ℕ → Bool) (countThreshold : ℕ) :
    InAllTransfers M ids dmt countThreshold fun S accepts out x =>
      NeverLost S ids dmt accepts out x :=
  inAllTransfers_of_handing ids dmt countThreshold fun hS h => h.neverLost hS

end Schedulers

end FlexPS.Worker
