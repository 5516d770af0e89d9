import FlexPS.ML.PSBspHistory

/-!
# What a BSP process cache pushes

The leader reads and clears the parameters without a lock.  Nobody adds to them in the meantime:
who pushes in a round has met the leader in the pull of that round, and the leader has not met him
at the push barrier.

## Main definitions

* `roundSums` — the sums that the leader sends.
* `BspSums`, `bspSums_step` — the invariant of pushes.
-/

namespace FlexPS.ML

open KVStore Lib

variable {Val : Type}

/-! ## The rounds of the leader -/

/-- The thread has pushed in this round, and has not cleared the parameters. -/
def BspPhase.unclean : BspPhase Val → Bool
  | added | gathering _ | crossing | collecting _ _ | clearing _ | relaying => true
  | _ => false

/-- How many rounds the thread has been done with the parameters of. -/
def BspThread.cleared (w : BspThread Val) : ℕ := w.pushCount - w.phase.unclean.toNat

/-- How many parameters of the round have been cleared. -/
def BspPhase.wiped : BspPhase Val → ℕ
  | clearing i => i
  | _ => 0

@[simp] theorem cleared_settled (w : BspThread Val) : w.settled.cleared = w.cleared := by
  obtain ⟨phase, p, q⟩ := w
  cases phase <;> rfl

@[simp] theorem wiped_settled (w : BspThread Val) : w.settled.phase.wiped = w.phase.wiped := by
  obtain ⟨phase, p, q⟩ := w
  cases phase <;> rfl

theorem BspThread.Shape.cleared {w : BspThread Val} (h : w.Shape) :
    w.cleared ≤ w.count .send ∧ w.count .ask ≤ w.cleared + 1 := by
  obtain ⟨phase, p, q⟩ := w
  cases phase <;>
    simp [Shape, BspThread.cleared, count, BspPhase.ahead, BspPhase.unclean] at h ⊢ <;> omega

/-- A thread that clears is past the push barrier. -/
theorem BspThread.Shape.of_wiped {w : BspThread Val} (h : w.Shape) (hwiped : w.phase.wiped ≠ 0) :
    w.count .leavePush = w.cleared + 1 := by
  obtain ⟨phase, p, q⟩ := w
  cases phase <;>
    simp [Shape, BspThread.cleared, count, BspPhase.ahead, BspPhase.unclean, BspPhase.wiped]
      at h hwiped ⊢
  omega

section Sums

variable [AddCommMonoid Val] [DecidableEq Val]

/-- What a thread has found out that is about to send its push. -/
def BspPhase.Sends (cfg : BspConfig) (t : ℕ) (out : List (BspEvent Val)) (r : ℕ) :
    BspPhase Val → Prop
  | collecting i pairs => t = cfg.leader ∧ i ≤ cfg.numParams ∧ pairs = roundSums i out r
  | clearing i => t = cfg.leader ∧ i ≤ cfg.numParams
  | relaying => t ≠ cfg.leader
  | _ => True

/-- What is sent in a round: the sums by the leader, and nothing by the others. -/
def sumsSent (cfg : BspConfig) (out : List (BspEvent Val)) (t r : ℕ) : List (ℕ × Val) :=
  if t = cfg.leader then roundSums cfg.numParams out r else []

/-- The invariant of pushes. -/
structure BspSums (cfg : BspConfig) (out : List (BspEvent Val)) (s : BspSystem Val) : Prop where
  params : ∀ i < cfg.numParams, s.model.params i =
    if i < (s.threads cfg.leader).phase.wiped then 0
    else roundSum out (s.threads cfg.leader).cleared i
  phases : ∀ t < cfg.numThreads,
    (s.threads t).phase.Sends cfg t out (s.threads cfg.leader).cleared
  sent : ∀ r, ∀ x ∈ pushesSent out r,
    (∀ v < cfg.numThreads, r < s.count .push v) ∧ x.2 = sumsSent cfg out x.1 r

variable {cfg : BspConfig} {gP gQ t : ℕ} {s s' : BspSystem Val} {out o : List (BspEvent Val)}

omit [DecidableEq Val] in
theorem roundSum_congr {out' : List (BspEvent Val)} {r : ℕ}
    (h : pushesIn out' r = pushesIn out r) (i : ℕ) : roundSum out' r i = roundSum out r i := by
  rw [roundSum, roundSum, h]

theorem roundSums_congr {out' : List (BspEvent Val)} {r : ℕ}
    (h : pushesIn out' r = pushesIn out r) (n : ℕ) : roundSums n out' r = roundSums n out r := by
  simp only [roundSums, roundSum_congr h]

theorem sumsSent_congr {out' : List (BspEvent Val)} {r : ℕ}
    (h : pushesIn out' r = pushesIn out r) (t : ℕ) :
    sumsSent cfg out' t r = sumsSent cfg out t r := by
  rw [sumsSent, sumsSent, roundSums_congr h]

@[simp] theorem sends_settled (w : BspThread Val) {r : ℕ} :
    w.settled.phase.Sends cfg t out r ↔ w.phase.Sends cfg t out r := by
  obtain ⟨phase, p, q⟩ := w
  cases phase <;> rfl

theorem BspPhase.Sends.congr {phase : BspPhase Val} {out' : List (BspEvent Val)} {r : ℕ}
    (h : phase.Sends cfg t out r) (hpushes : pushesIn out' r = pushesIn out r) :
    phase.Sends cfg t out' r := by
  cases phase with
  | collecting i pairs => exact ⟨h.1, h.2.1, h.2.2.trans (roundSums_congr hpushes i).symm⟩
  | _ => exact h

/-- The sums of one more parameter. -/
theorem roundSums_succ (i r : ℕ) : roundSums (i + 1) out r =
    if roundSum out r i ≠ 0 then roundSums i out r ++ [(i, roundSum out r i)]
    else roundSums i out r := by
  by_cases h : roundSum out r i = 0 <;> simp [roundSums, List.range_succ, h]

theorem bspSums_init : BspSums cfg [] (.init : BspSystem Val) where
  params _ _ := rfl
  phases _ _ := trivial
  sent _ _ := nofun

omit [DecidableEq Val] in
/-- Adding to the parameters. -/
theorem PSBspModel.add_params (m : PSBspModel Val) (pairs : List (ℕ × Val)) (i : ℕ) :
    (m.add pairs).params i = m.params i + written pairs i := by
  unfold add
  simp only
  generalize m.params = params
  induction pairs generalizing params with
  | nil => rw [written_nil, add_zero, List.foldl_nil]
  | cons p pairs ih =>
      rw [List.foldl_cons, ih, written_cons, ← add_assoc]
      congr 1
      by_cases hi : p.1 = i
      · subst hi
        rw [Function.update_self, if_pos rfl]
      · rw [Function.update_of_ne (Ne.symm hi), if_neg hi, add_zero]

/-! ## The leader and the others -/

section Leader

omit [AddCommMonoid Val] [DecidableEq Val]

variable (hrounds : BspRounds cfg gP gQ s) (ht : t < cfg.numThreads)

include hrounds ht

/-- **Who pushes in a round finds the parameters of that round**, and the leader not past the push
barrier. -/
theorem BspRounds.pusher (hl : cfg.leader < cfg.numThreads)
    (hturn : s.count .leavePull t = s.count .push t + 1) :
    (s.threads cfg.leader).cleared = s.count .push t ∧
      s.count .leavePush cfg.leader ≤ s.count .push t := by
  have hmet := hrounds.pull.met ht hl
  have hmet' := hrounds.push.met hl ht
  have ht' := hrounds.order ht
  have hl' := hrounds.order hl
  have hcleared : (s.threads cfg.leader).cleared ≤ s.count .send cfg.leader ∧
      s.count .ask cfg.leader ≤ (s.threads cfg.leader).cleared + 1 :=
    (hrounds.shape _ hl).cleared
  omega

/-- Who is past the push barrier has met everybody. -/
theorem BspRounds.sender {r : ℕ} (hturn : r < s.count .leavePush t) :
    ∀ v < cfg.numThreads, r < s.count .push v := by
  intro v hv
  have hmet := hrounds.push.met ht hv
  have := hrounds.order hv
  omega

end Leader

/-! ## Steps of a push -/

/-- A step that does not change the parameters, and after which the leader is in the same round. -/
theorem BspSums.frame (h : BspSums cfg out s)
    (hothers : ∀ v ≠ t, (s'.threads v).settled = (s.threads v).settled)
    (hparams : s'.model.params = s.model.params) (hpushes : ∀ r, pushesIn o r = [])
    (hcount : ∀ v, s.count .push v ≤ s'.count .push v)
    (hleader : t = cfg.leader → (s'.threads t).cleared = (s.threads t).cleared ∧
      (s'.threads t).phase.wiped = (s.threads t).phase.wiped)
    (hphase : (s'.threads t).phase.Sends cfg t out (s.threads cfg.leader).cleared)
    (hsent : ∀ r, ∀ x ∈ pushesSent o r,
      (∀ v < cfg.numThreads, r < s.count .push v) ∧ x.2 = sumsSent cfg out x.1 r) :
    BspSums cfg (out ++ o) s' := by
  have hpushes' : ∀ r, pushesIn (out ++ o) r = pushesIn out r := fun r => by simp [hpushes]
  have hleader' : (s'.threads cfg.leader).cleared = (s.threads cfg.leader).cleared ∧
      (s'.threads cfg.leader).phase.wiped = (s.threads cfg.leader).phase.wiped := by
    by_cases htl : cfg.leader = t
    · rw [htl]
      exact hleader htl.symm
    · have heq := hothers _ htl
      rw [← cleared_settled, heq, cleared_settled, ← wiped_settled, heq, wiped_settled]
      exact ⟨rfl, rfl⟩
  refine ⟨fun i hi => ?_, fun v hv => ?_, fun r x hx => ?_⟩
  · rw [hparams, hleader'.1, hleader'.2, roundSum_congr (hpushes' _)]
    exact h.params i hi
  · rw [hleader'.1]
    by_cases hvt : v = t
    · subst hvt
      exact hphase.congr (hpushes' _)
    · rw [← sends_settled, hothers v hvt, sends_settled]
      exact (h.phases v hv).congr (hpushes' _)
  · rw [sumsSent_congr (hpushes' r)]
    have hx' : (∀ v < cfg.numThreads, r < s.count .push v) ∧ x.2 = sumsSent cfg out x.1 r := by
      rw [pushesSent_append, List.mem_append] at hx
      rcases hx with hx | hx
      · exact h.sent r x hx
      · exact hsent r x hx
    exact ⟨fun v hv => (hx'.1 v hv).trans_le (hcount v), hx'.2⟩

/-- A thread adds to the parameters. -/
theorem BspSums.push (h : BspSums cfg out s) (hrounds : BspRounds cfg gP gQ s)
    (ht : t < cfg.numThreads) (hl : cfg.leader < cfg.numThreads) {p q : ℕ}
    {pairs : List (ℕ × Val)} (hw : s.threads t = ⟨.idle, p, q⟩) (hturn : q + 1 = p)
    (hmodel : s'.model = s.model.add pairs) (hw' : s'.threads t = ⟨.added, p, q + 1⟩)
    (hcount : ∀ v, s.count .push v ≤ s'.count .push v)
    (hothers : ∀ v ≠ t, (s'.threads v).settled = (s.threads v).settled) :
    BspSums cfg (out ++ [.pushed t q pairs]) s' := by
  have hpush : s.count .push t = q := by
    rw [BspSystem.count, hw]
    rfl
  have hpull : s.count .leavePull t = q + 1 := by
    rw [BspSystem.count, hw]
    exact hturn.symm
  obtain ⟨hround, hbehind⟩ := hrounds.pusher ht hl (by omega)
  rw [hpush] at hround hbehind
  have hcleared : (s'.threads cfg.leader).cleared = q := by
    by_cases htl : cfg.leader = t
    · rw [htl, hw']
      rfl
    · rw [← cleared_settled, hothers _ htl, cleared_settled, hround]
  -- the leader is not clearing
  have hwiped : (s.threads cfg.leader).phase.wiped = 0 := by
    by_contra hne
    have hpast : s.count .leavePush cfg.leader = (s.threads cfg.leader).cleared + 1 :=
      (hrounds.shape _ hl).of_wiped hne
    omega
  have hwiped' : (s'.threads cfg.leader).phase.wiped = 0 := by
    by_cases htl : cfg.leader = t
    · rw [htl, hw']
      rfl
    · rw [← wiped_settled, hothers _ htl, wiped_settled, hwiped]
  have hpushes : pushesIn (out ++ [.pushed t q pairs]) q = pushesIn out q ++ [(t, pairs)] := by
    simp [pushesIn]
  have hpushes' : ∀ r, r ≠ q → pushesIn (out ++ [.pushed t q pairs]) r = pushesIn out r := by
    intro r hr
    simp [pushesIn, Ne.symm hr]
  refine ⟨fun i hi => ?_, fun v hv => ?_, fun r x hx => ?_⟩
  · rw [hmodel, PSBspModel.add_params, h.params i hi, hwiped, hwiped', hround, hcleared]
    simp only [Nat.not_lt_zero, if_false]
    rw [roundSum, roundSum, hpushes, List.flatMap_append, written_append]
    simp
  · rw [hcleared]
    by_cases hvt : v = t
    · subst hvt
      rw [hw']
      trivial
    · have hsends := h.phases v hv
      rw [← sends_settled, hothers v hvt, sends_settled]
      have hshape := hrounds.shape cfg.leader hl
      generalize hphase : (s.threads v).phase = phase at hsends
      cases phase with
      | collecting i pairs' =>
          -- the leader would be past the push barrier
          exfalso
          obtain ⟨rfl, -⟩ := hsends
          have hpast : s.count .leavePush cfg.leader = (s.threads cfg.leader).cleared + 1 := by
            rw [BspSystem.count]
            generalize s.threads cfg.leader = w at hphase hshape
            obtain ⟨_, p', q'⟩ := w
            cases hphase
            simp only [BspThread.Shape] at hshape
            simp [BspThread.count, BspThread.cleared, BspPhase.ahead, BspPhase.unclean]
            omega
          omega
      | _ => exact hsends
  · have hx : x ∈ pushesSent out r := by
      rw [pushesSent_append, List.mem_append] at hx
      exact hx.resolve_right (by simp [pushesSent])
    obtain ⟨hall, hsum⟩ := h.sent r x hx
    have hne : r ≠ q := by
      have := hall t ht
      omega
    rw [sumsSent_congr (hpushes' r hne)]
    exact ⟨fun v hv => (hall v hv).trans_le (hcount v), hsum⟩

/-- The leader clears a parameter. -/
theorem BspSums.clear (h : BspSums cfg out s) {p q i : ℕ} (hl : t = cfg.leader)
    (hw : s.threads t = ⟨.clearing i, p, q⟩) (hi : i < cfg.numParams)
    (hparams : s'.model.params = Function.update s.model.params i 0)
    (hw' : s'.threads t = ⟨.clearing (i + 1), p, q⟩)
    (hcount : ∀ v, s.count .push v ≤ s'.count .push v)
    (hothers : ∀ v ≠ t, (s'.threads v).settled = (s.threads v).settled) :
    BspSums cfg (out ++ []) s' := by
  subst hl
  have hcleared : (s'.threads cfg.leader).cleared = (s.threads cfg.leader).cleared := by
    rw [hw, hw']
    rfl
  rw [List.append_nil]
  refine ⟨fun j hj => ?_, fun v hv => ?_, fun r x hx => ?_⟩
  · have hold := h.params j hj
    have hwiped : (s.threads cfg.leader).phase.wiped = i := by rw [hw]; rfl
    have hwiped' : (s'.threads cfg.leader).phase.wiped = i + 1 := by rw [hw']; rfl
    rw [hwiped] at hold
    rw [hparams, hcleared, hwiped']
    by_cases hji : j = i
    · subst hji
      rw [Function.update_self, if_pos (Nat.lt_succ_self j)]
    · rw [Function.update_of_ne hji, hold]
      by_cases hlt : j < i
      · rw [if_pos hlt, if_pos (Nat.lt_succ_of_lt hlt)]
      · rw [if_neg hlt, if_neg (by omega)]
  · rw [hcleared]
    by_cases hvt : v = cfg.leader
    · subst hvt
      rw [hw']
      exact ⟨rfl, hi⟩
    · rw [← sends_settled, hothers v hvt, sends_settled]
      exact h.phases v hv
  · obtain ⟨hall, hsum⟩ := h.sent r x hx
    exact ⟨fun v hv => (hall v hv).trans_le (hcount v), hsum⟩

/-- **The leader has cleared the parameters**, and nobody has pushed in the next round. -/
theorem BspSums.cleared (h : BspSums cfg out s) (hrounds : BspRounds cfg gP gQ s)
    (hpushes : OncePerRound cfg.numThreads (fun r => (pushesIn out r).map Prod.fst)
      (s.count .push)) {p q i : ℕ} (hl : t = cfg.leader) (ht : t < cfg.numThreads)
    (hw : s.threads t = ⟨.clearing i, p, q⟩) (hi : cfg.numParams ≤ i)
    (hparams : s'.model.params = s.model.params) (hw' : s'.threads t = ⟨.finishing, p, q⟩)
    (hcount : ∀ v, s.count .push v ≤ s'.count .push v)
    (hothers : ∀ v ≠ t, (s'.threads v).settled = (s.threads v).settled) :
    BspSums cfg (out ++ []) s' := by
  subst hl
  have hcleared : (s'.threads cfg.leader).cleared = q := by
    rw [hw']
    rfl
  have hnone : pushesIn out q = [] := by
    refine hpushes.eq_nil fun v hv => ?_
    have hshape := hrounds.shape cfg.leader ht
    rw [hw] at hshape
    have hpull : s.count .leavePull cfg.leader = q := by
      rw [BspSystem.count, hw]
      exact hshape.1
    have hask : s.count .ask cfg.leader = q := by
      rw [BspSystem.count, hw]
      exact hshape.1
    have hmet := hrounds.pull.met hv ht
    have := hrounds.order hv
    have := hrounds.order ht
    omega
  rw [List.append_nil]
  refine ⟨fun j hj => ?_, fun v hv => ?_, fun r x hx => ?_⟩
  · have hold := h.params j hj
    have hwiped : (s.threads cfg.leader).phase.wiped = i := by rw [hw]; rfl
    have hwiped' : (s'.threads cfg.leader).phase.wiped = 0 := by rw [hw']; rfl
    rw [hwiped, if_pos (by omega)] at hold
    rw [hparams, hold, hcleared, hwiped', if_neg (by omega), roundSum, hnone]
    rfl
  · by_cases hvt : v = cfg.leader
    · subst hvt
      rw [hw']
      trivial
    · have hsends := h.phases v hv
      rw [← sends_settled, hothers v hvt, sends_settled]
      generalize (s.threads v).phase = phase at hsends
      cases phase with
      | collecting i pairs => exact absurd hsends.1 hvt
      | _ => exact hsends
  · obtain ⟨hall, hsum⟩ := h.sent r x hx
    exact ⟨fun v hv => (hall v hv).trans_le (hcount v), hsum⟩

omit [AddCommMonoid Val] [DecidableEq Val] in
theorem mem_pushesSent_singleton {r r' : ℕ} {pairs : List (ℕ × Val)} {x : ℕ × List (ℕ × Val)} :
    x ∈ pushesSent [.sentPush t r' pairs] r ↔ r = r' ∧ x = (t, pairs) := by
  by_cases hr : r' = r
  · simp [pushesSent, hr]
  · simp [pushesSent, hr, Ne.symm hr]

/-- **A step keeps the invariant of pushes.** -/
theorem bspSums_step (h : BspSums cfg out s) (hrounds : BspRounds cfg gP gQ s)
    (hhistory : BspHistory cfg gP gQ out s) (hl : cfg.leader < cfg.numThreads)
    (ht : t < cfg.numThreads) {tag : Option BspTag}
    (hmove : BspMove cfg t s.model s.pullMutex (s.threads t) tag s'.model s'.pullMutex
      (s'.threads t) o)
    (hothers : ∀ v ≠ t, (s'.threads v).settled = (s.threads v).settled) :
    BspSums cfg (out ++ o) s' := by
  have hcount : ∀ v, s.count .push v ≤ s'.count .push v := by
    intro v
    rw [BspStepOf.count_eq hothers hmove (hrounds.shape t ht)]
    split
    · exact le_advance _ v t
    · exact le_rfl
  have hshape := hrounds.shape t ht
  have hphase := h.phases t ht
  have hsender : ∀ r, r < s.count .leavePush t → ∀ v < cfg.numThreads, r < s.count .push v :=
    fun r hr => hrounds.sender ht hr
  have hleave : s.count .leavePush t = (s.threads t).count .leavePush := rfl
  generalize hw : s.threads t = w at hmove hshape hphase hleave
  generalize hw' : s'.threads t = w' at hmove
  generalize hmodel : s'.model = m' at hmove
  generalize hmutex : s'.pullMutex = mutex' at hmove
  have hparams : m'.params = s.model.params → s'.model.params = s.model.params := by
    rw [hmodel]
    exact id
  cases hmove with
  | push hturn => exact h.push hrounds ht hl hw hturn hmodel hw' hcount hothers
  | @collect p q i pairs hi =>
      obtain ⟨rfl, -, rfl⟩ := hphase
      have hround : (s.threads cfg.leader).phase.wiped = 0 := by rw [hw]; rfl
      have hparam := h.params i hi
      rw [hround, if_neg (Nat.not_lt_zero i)] at hparam
      refine h.frame hothers (hparams rfl) (fun _ => rfl) hcount
        (fun _ => by rw [hw, hw']; exact ⟨rfl, rfl⟩) ?_ (fun _ => List.forall_mem_nil _)
      rw [hw']
      refine ⟨rfl, hi, ?_⟩
      rw [roundSums_succ, hparam]
  | @send p q i pairs hi =>
      obtain ⟨rfl, hi', rfl⟩ := hphase
      refine h.frame hothers (hparams rfl) (fun _ => rfl) hcount
        (fun _ => by rw [hw, hw']; exact ⟨rfl, rfl⟩) ?_ fun r x hx => ?_
      · rw [hw']
        exact ⟨rfl, Nat.zero_le _⟩
      · have hp : p = q := hshape.1
        have hround : (s.threads cfg.leader).cleared = p - 1 := by rw [hw, hp]; rfl
        obtain ⟨rfl, rfl⟩ := mem_pushesSent_singleton.mp hx
        refine ⟨hsender _ ?_, ?_⟩
        · have hpos : 0 < q := hshape.2
          have hq : s.count .leavePush cfg.leader = q := hleave
          omega
        · rw [sumsSent, if_pos rfl, hround, le_antisymm hi' hi]
  | @clear p q i hi =>
      obtain ⟨rfl, -⟩ := hphase
      exact h.clear rfl hw hi (by rw [hmodel]) hw' hcount hothers
  | cleared hi =>
      obtain ⟨rfl, -⟩ := hphase
      exact h.cleared hrounds hhistory.pushes rfl ht hw hi (hparams rfl) hw' hcount hothers
  | @relay p q =>
      have hne : t ≠ cfg.leader := hphase
      refine h.frame hothers (hparams rfl) (fun _ => rfl) hcount (fun htl => absurd htl hne)
        (by rw [hw']; trivial) fun r x hx => ?_
      obtain ⟨rfl, rfl⟩ := mem_pushesSent_singleton.mp hx
      refine ⟨hsender _ ?_, ?_⟩
      · have hp : p = q := hshape.1
        have hpos : 0 < q := hshape.2
        have hq : s.count .leavePush t = q := hleave
        omega
      · rw [sumsSent, if_neg hne]
  | leavePull =>
      refine h.frame hothers (hparams rfl) (fun r => ?_) hcount
        (fun _ => by rw [hw, hw']; exact ⟨rfl, rfl⟩) (by rw [hw']; trivial) (fun r x hx => ?_)
      · split <;> rfl
      · split at hx <;> cases hx
  | leavePush =>
      refine h.frame hothers (hparams rfl) (fun r => ?_) hcount
        (fun htl => ?_) ?_ (fun r x hx => ?_)
      · split <;> rfl
      · rw [hw, hw', if_pos htl]
        exact ⟨rfl, rfl⟩
      · rw [hw']
        split
        · next htl => exact ⟨htl, Nat.zero_le _, rfl⟩
        · next hne => exact hne
      · split at hx <;> cases hx
  | arrivePush hnext =>
      rcases hnext with ⟨rfl, -⟩ | ⟨_, rfl⟩ <;>
        exact h.frame hothers (hparams rfl) (fun _ => rfl) hcount
          (fun _ => by rw [hw, hw']; exact ⟨rfl, rfl⟩) (by rw [hw']; trivial) (fun _ => List.forall_mem_nil _)
  | stirPush hnext =>
      rcases hnext with ⟨rfl, -⟩ | ⟨_, rfl⟩ <;>
        exact h.frame hothers (hparams rfl) (fun _ => rfl) hcount
          (fun _ => by rw [hw, hw']; exact ⟨rfl, rfl⟩) (by rw [hw']; trivial) (fun _ => List.forall_mem_nil _)
  | _ =>
      exact h.frame hothers (hparams rfl) (fun _ => rfl) hcount
        (fun _ => by rw [hw, hw']; exact ⟨rfl, rfl⟩) (by rw [hw']; trivial) (fun _ => List.forall_mem_nil _)

end Sums

end FlexPS.ML
