import FlexPS.ML.PSBspModel

/-!
# The rounds of a BSP process cache

The two barriers of a `PSBspModel` take turns: nobody comes back to one of them before everybody
has left it, because the other one is in between.

## Main definitions

* `BspThread.count` — how often a thread has done what it does once in a round.
* `BspRounds` — both barriers are in a generation.
* `bspRounds_step` — every step keeps them there.
-/

namespace FlexPS.ML

open KVStore Lib

variable {Val : Type}

/-! ## Counting rounds -/

/-- The thread still has to do this in its call. -/
def BspPhase.ahead : BspPhase Val → BspTag → Bool
  | asked _, .arrivePull => true
  | asked _, .leavePull | answering _, .leavePull | awaiting _ _, .leavePull
  | reading _ _ _ _, .leavePull => true
  | added, .arrivePush => true
  | added, .leavePush | gathering _, .leavePush | crossing, .leavePush => true
  | added, .send | gathering _, .send | crossing, .send | collecting _ _, .send
  | relaying, .send => true
  | _, _ => false

/-- In how many rounds the thread has done it. -/
def BspThread.count (w : BspThread Val) (tag : BspTag) : ℕ :=
  match tag with
  | .ask | .arrivePull | .leavePull => w.pullCount - (w.phase.ahead tag).toNat
  | .push | .arrivePush | .leavePush | .send => w.pushCount - (w.phase.ahead tag).toNat

/-- The counters of a thread go with its phase. -/
def BspThread.Shape (w : BspThread Val) : Prop :=
  match w.phase with
  | .idle => w.pullCount = w.pushCount ∨ w.pullCount = w.pushCount + 1
  | .asked _ | .answering _ | .awaiting _ _ | .reading _ _ _ _ => w.pullCount = w.pushCount + 1
  | .added | .gathering _ | .crossing | .collecting _ _ | .clearing _ | .relaying | .finishing =>
      w.pullCount = w.pushCount ∧ 0 < w.pushCount

@[simp] theorem count_settled (w : BspThread Val) : w.settled.count = w.count := by
  obtain ⟨phase, p, q⟩ := w
  funext tag
  cases phase <;> cases tag <;> rfl

@[simp] theorem shape_settled (w : BspThread Val) : w.settled.Shape ↔ w.Shape := by
  obtain ⟨phase, p, q⟩ := w
  cases phase <;> rfl

/-- The order of a round. -/
theorem BspThread.Shape.order {w : BspThread Val} (h : w.Shape) :
    w.count .send ≤ w.count .leavePush ∧ w.count .leavePush ≤ w.count .arrivePush ∧
    w.count .arrivePush ≤ w.count .push ∧ w.count .push ≤ w.count .leavePull ∧
    w.count .leavePull ≤ w.count .arrivePull ∧ w.count .arrivePull ≤ w.count .ask ∧
    w.count .ask ≤ w.count .send + 1 := by
  obtain ⟨phase, p, q⟩ := w
  cases phase <;> simp [Shape, count, BspPhase.ahead] at h ⊢ <;> omega

section Move

variable [AddCommMonoid Val] [DecidableEq Val] {cfg : BspConfig} {t : ℕ} {m m' : PSBspModel Val}
  {mutex mutex' : Option ℕ} {w w' : BspThread Val} {tag : Option BspTag} {o : List (BspEvent Val)}

theorem BspMove.shape (h : BspMove cfg t m mutex w tag m' mutex' w' o) (hw : w.Shape) :
    w'.Shape := by
  cases h with
  | ask hturn => simp only [BspThread.Shape]; omega
  | push hturn => simp only [BspThread.Shape]; omega
  | leavePull => exact .inr hw
  | finish => exact .inl hw.1
  | leavePush =>
      split
      · exact hw
      · exact hw
  | arrivePush hphase => rcases hphase with ⟨rfl, -⟩ | ⟨_, rfl⟩ <;> exact hw
  | stirPush hphase => rcases hphase with ⟨rfl, -⟩ | ⟨_, rfl⟩ <;> exact hw
  | _ => exact hw

/-- A move does at most one thing for the round. -/
theorem BspMove.count_eq (h : BspMove cfg t m mutex w tag m' mutex' w' o) (hw : w.Shape)
    (g : BspTag) : w'.count g = if tag = some g then w.count g + 1 else w.count g := by
  cases h with
  | arrivePush hphase =>
      rcases hphase with ⟨rfl, -⟩ | ⟨_, rfl⟩ <;> cases g <;>
        simp [BspThread.Shape, BspThread.count, BspPhase.ahead] at hw ⊢ <;> omega
  | stirPush hphase =>
      rcases hphase with ⟨rfl, -⟩ | ⟨_, rfl⟩ <;> cases g <;>
        simp [BspThread.count, BspPhase.ahead]
  | leavePush =>
      split <;> cases g <;>
        simp [BspThread.Shape, BspThread.count, BspPhase.ahead] at hw ⊢ <;> omega
  | _ =>
      cases g <;> simp [BspThread.Shape, BspThread.count, BspPhase.ahead] at hw ⊢ <;> omega

end Move

/-! ## Generations -/

/-- The thread has found the first counter of the pull barrier full, and has not left. -/
def BspPhase.metPull : BspPhase Val → Prop
  | answering _ | reading _ _ _ _ => True
  | _ => False

/-- The thread has found the first counter of the push barrier full, and has not left. -/
def BspPhase.metPush : BspPhase Val → Prop
  | crossing => True
  | _ => False

theorem BspThread.Shape.of_metPull {w : BspThread Val} (h : w.Shape) (hmet : w.phase.metPull) :
    w.count .leavePull = w.count .leavePush := by
  obtain ⟨phase, p, q⟩ := w
  cases phase <;> simp [Shape, count, BspPhase.ahead, BspPhase.metPull] at h hmet ⊢ <;> omega

theorem BspThread.Shape.of_metPush {w : BspThread Val} (h : w.Shape) (hmet : w.phase.metPush) :
    w.count .leavePull = w.count .leavePush + 1 := by
  obtain ⟨phase, p, q⟩ := w
  cases phase <;> simp [Shape, count, BspPhase.ahead, BspPhase.metPush] at h hmet ⊢
  omega

@[simp] theorem metPull_settled (w : BspThread Val) :
    w.settled.phase.metPull ↔ w.phase.metPull := by
  obtain ⟨phase, p, q⟩ := w
  cases phase <;> rfl

@[simp] theorem metPush_settled (w : BspThread Val) :
    w.settled.phase.metPush ↔ w.phase.metPush := by
  obtain ⟨phase, p, q⟩ := w
  cases phase <;> rfl

/-- How often the threads have done it. -/
def BspSystem.count (s : BspSystem Val) (g : BspTag) (t : ℕ) : ℕ := (s.threads t).count g

/-- The pull barrier is in generation `gP` and the push barrier in generation `gQ`. -/
structure BspRounds (cfg : BspConfig) (gP gQ : ℕ) (s : BspSystem Val) : Prop where
  shape : ∀ t < cfg.numThreads, (s.threads t).Shape
  pull : s.model.pullBarrier.InGen cfg.numThreads gP (s.count .arrivePull) (s.count .leavePull)
  push : s.model.pushBarrier.InGen cfg.numThreads gQ (s.count .arrivePush) (s.count .leavePush)
  metPull : ∀ t < cfg.numThreads, (s.threads t).phase.metPull →
    s.model.pullBarrier.num = cfg.numThreads
  metPush : ∀ t < cfg.numThreads, (s.threads t).phase.metPush →
    s.model.pushBarrier.num = cfg.numThreads

section Rounds

variable {cfg : BspConfig} {gP gQ : ℕ} {s : BspSystem Val}

theorem bspRounds_init [Zero Val] (hT : 0 < cfg.numThreads) :
    BspRounds cfg 0 0 (.init : BspSystem Val) where
  shape _ _ := .inl rfl
  pull := Barrier.inGen_new hT
  push := Barrier.inGen_new hT
  metPull _ _ := nofun
  metPush _ _ := nofun

theorem BspRounds.order (h : BspRounds cfg gP gQ s) {t : ℕ} (ht : t < cfg.numThreads) :
    s.count .send t ≤ s.count .leavePush t ∧ s.count .leavePush t ≤ s.count .arrivePush t ∧
    s.count .arrivePush t ≤ s.count .push t ∧ s.count .push t ≤ s.count .leavePull t ∧
    s.count .leavePull t ≤ s.count .arrivePull t ∧ s.count .arrivePull t ≤ s.count .ask t ∧
    s.count .ask t ≤ s.count .send t + 1 :=
  (h.shape t ht).order

/-- A thread between its last push barrier and the end of its pull is in the pull barrier's
generation: everybody has left the pull barrier of the round before. -/
theorem BspRounds.gP_eq (h : BspRounds cfg gP gQ s) {t : ℕ} (ht : t < cfg.numThreads)
    (heq : s.count .leavePull t = s.count .leavePush t) : gP = s.count .leavePull t := by
  obtain ⟨v, hv, hlast⟩ := h.pull.exists_leaves
  have hle := h.pull.le_leaves t ht
  have hmet := h.push.met ht hv
  have := h.order hv
  omega

/-- A thread between its last pull barrier and the end of the push barrier is in the push barrier's
generation. -/
theorem BspRounds.gQ_eq (h : BspRounds cfg gP gQ s) {t : ℕ} (ht : t < cfg.numThreads)
    (heq : s.count .leavePull t = s.count .leavePush t + 1) : gQ = s.count .leavePush t := by
  obtain ⟨v, hv, hlast⟩ := h.push.exists_leaves
  have hle := h.push.le_leaves t ht
  have hmet := h.pull.met ht hv
  have := h.order hv
  omega

/-- Nobody is ahead of the pull barrier by more than a round. -/
theorem BspRounds.ask_le (h : BspRounds cfg gP gQ s) {t : ℕ} (ht : t < cfg.numThreads) :
    s.count .ask t ≤ gP + 1 := by
  obtain ⟨v, hv, hlast⟩ := h.pull.exists_leaves
  have hmet := h.push.met ht hv
  have := h.order hv
  have := h.order ht
  omega

end Rounds

section Step

variable [AddCommMonoid Val] [DecidableEq Val] {cfg : BspConfig} {gP gQ t : ℕ}
  {s s' : BspSystem Val} {o : List (BspEvent Val)} {tag : Option BspTag}

/-- The pull barrier is reset by a step. -/
def resetsPull (cfg : BspConfig) (s : BspSystem Val) (tag : Option BspTag) : Bool :=
  tag = some .leavePull && s.model.pullBarrier.lastToLeave cfg.numThreads

/-- The push barrier is reset by a step. -/
def resetsPush (cfg : BspConfig) (s : BspSystem Val) (tag : Option BspTag) : Bool :=
  tag = some .leavePush && s.model.pushBarrier.lastToLeave cfg.numThreads

/-- What a step does to the counts. -/
theorem BspStepOf.count_eq (hothers : ∀ v ≠ t, (s'.threads v).settled = (s.threads v).settled)
    (hmove : BspMove cfg t s.model s.pullMutex (s.threads t) tag s'.model s'.pullMutex
      (s'.threads t) o) (hw : (s.threads t).Shape) (g : BspTag) :
    s'.count g = if tag = some g then advance (s.count g) t else s.count g := by
  funext v
  by_cases hv : v = t
  · subst hv
    have hcount : s'.count g v = if tag = some g then s.count g v + 1 else s.count g v :=
      hmove.count_eq hw g
    rw [hcount]
    by_cases htag : tag = some g
    · rw [if_pos htag, if_pos htag, advance_self]
    · rw [if_neg htag, if_neg htag]
  · have hcount : s'.count g v = s.count g v := by
      rw [BspSystem.count, BspSystem.count, ← count_settled, hothers v hv, count_settled]
    rw [hcount]
    split
    · exact (advance_of_ne _ hv).symm
    · rfl

/-- The pull barrier after a move. -/
theorem BspMove.pullBarrier_eq {m m' : PSBspModel Val} {mutex mutex' : Option ℕ}
    {w w' : BspThread Val} (h : BspMove cfg t m mutex w tag m' mutex' w' o) :
    m'.pullBarrier = if tag = some .arrivePull then m.pullBarrier.arrive
      else if tag = some .leavePull then m.pullBarrier.leave cfg.numThreads
      else m.pullBarrier := by
  cases h <;> rfl

/-- The push barrier after a move. -/
theorem BspMove.pushBarrier_eq {m m' : PSBspModel Val} {mutex mutex' : Option ℕ}
    {w w' : BspThread Val} (h : BspMove cfg t m mutex w tag m' mutex' w' o) :
    m'.pushBarrier = if tag = some .arrivePush then m.pushBarrier.arrive
      else if tag = some .leavePush then m.pushBarrier.leave cfg.numThreads
      else m.pushBarrier := by
  cases h <;> rfl

/-- A thread that arrives at the pull barrier, or leaves it, is in its generation. -/
theorem BspRounds.pull_turn (h : BspRounds cfg gP gQ s) (ht : t < cfg.numThreads)
    (hmove : BspMove cfg t s.model s.pullMutex (s.threads t) tag s'.model s'.pullMutex
      (s'.threads t) o) :
    (tag = some .arrivePull → s.count .arrivePull t = gP) ∧
    (tag = some .leavePull → s.count .leavePull t = gP ∧
      s.model.pullBarrier.num = cfg.numThreads) := by
  have hgen := h.gP_eq ht
  have hshape := h.shape t ht
  have hmet := h.metPull t ht
  unfold BspSystem.count at *
  generalize s.threads t = w at *
  generalize s'.threads t = w' at hmove
  generalize s'.model = m' at hmove
  generalize s'.pullMutex = mutex' at hmove
  constructor
  · rintro rfl
    cases hmove <;> simp [BspThread.Shape, BspThread.count, BspPhase.ahead] at hshape hgen ⊢ <;> omega
  · rintro rfl
    cases hmove
    simp [BspThread.Shape, BspThread.count, BspPhase.ahead, BspPhase.metPull] at hshape hgen hmet ⊢
    omega

/-- A thread that arrives at the push barrier, or leaves it, is in its generation. -/
theorem BspRounds.push_turn (h : BspRounds cfg gP gQ s) (ht : t < cfg.numThreads)
    (hmove : BspMove cfg t s.model s.pullMutex (s.threads t) tag s'.model s'.pullMutex
      (s'.threads t) o) :
    (tag = some .arrivePush → s.count .arrivePush t = gQ) ∧
    (tag = some .leavePush → s.count .leavePush t = gQ ∧
      s.model.pushBarrier.num = cfg.numThreads) := by
  have hgen := h.gQ_eq ht
  have hshape := h.shape t ht
  have hmet := h.metPush t ht
  unfold BspSystem.count at *
  generalize s.threads t = w at *
  generalize s'.threads t = w' at hmove
  generalize s'.model = m' at hmove
  generalize s'.pullMutex = mutex' at hmove
  constructor
  · rintro rfl
    cases hmove
    simp [BspThread.Shape, BspThread.count, BspPhase.ahead] at hshape hgen ⊢
    omega
  · rintro rfl
    cases hmove
    simp [BspThread.Shape, BspThread.count, BspPhase.ahead, BspPhase.metPush] at hshape hgen hmet ⊢
    omega

/-- A thread that goes on past the pull barrier has found it full. -/
theorem BspMove.metPull {m m' : PSBspModel Val} {mutex mutex' : Option ℕ} {w w' : BspThread Val}
    (h : BspMove cfg t m mutex w tag m' mutex' w' o)
    (hw : w.phase.metPull → m.pullBarrier.num = cfg.numThreads) (hw' : w'.phase.metPull) :
    m'.pullBarrier.num = cfg.numThreads := by
  cases h with
  | arriveLast hfree hlast => exact hlast
  | answer => exact hw trivial
  | enter hfree hfull => exact hfull
  | skip => exact hw trivial
  | take => exact hw trivial
  | leavePush =>
      simp only at hw'
      split at hw' <;> cases hw'
  | arrivePush hphase => rcases hphase with ⟨rfl, -⟩ | ⟨_, rfl⟩ <;> cases hw'
  | stirPush hphase => rcases hphase with ⟨rfl, -⟩ | ⟨_, rfl⟩ <;> cases hw'
  | _ => cases hw'

/-- A thread that goes on past the push barrier has found it full. -/
theorem BspMove.metPush {m m' : PSBspModel Val} {mutex mutex' : Option ℕ} {w w' : BspThread Val}
    (h : BspMove cfg t m mutex w tag m' mutex' w' o) (hw' : w'.phase.metPush) :
    m'.pushBarrier.num = cfg.numThreads := by
  cases h with
  | leavePush =>
      simp only at hw'
      split at hw' <;> cases hw'
  | arrivePush hphase =>
      rcases hphase with ⟨rfl, hlast⟩ | ⟨_, rfl⟩
      · exact hlast
      · cases hw'
  | stirPush hphase =>
      rcases hphase with ⟨rfl, hfull⟩ | ⟨_, rfl⟩
      · exact hfull
      · cases hw'
  | _ => cases hw'

/-- **A step keeps the barriers in their generations**; the last thread to leave one of them begins
its next generation. -/
theorem bspRounds_step (h : BspRounds cfg gP gQ s) (ht : t < cfg.numThreads)
    (hmove : BspMove cfg t s.model s.pullMutex (s.threads t) tag s'.model s'.pullMutex
      (s'.threads t) o)
    (hothers : ∀ v ≠ t, (s'.threads v).settled = (s.threads v).settled) :
    BspRounds cfg (gP + (resetsPull cfg s tag).toNat) (gQ + (resetsPush cfg s tag).toNat) s' := by
  have hcount := BspStepOf.count_eq hothers hmove (h.shape t ht)
  have hpull := hmove.pullBarrier_eq
  have hpush := hmove.pushBarrier_eq
  obtain ⟨harriveP, hleaveP⟩ := h.pull_turn ht hmove
  obtain ⟨harriveQ, hleaveQ⟩ := h.push_turn ht hmove
  refine ⟨fun v hv => ?_, ?_, ?_, fun v hv hmet => ?_, fun v hv hmet => ?_⟩
  · by_cases hvt : v = t
    · subst hvt
      exact hmove.shape (h.shape v hv)
    · rw [← shape_settled, hothers v hvt, shape_settled]
      exact h.shape v hv
  · rw [hpull, hcount, hcount]
    by_cases hA : tag = some .arrivePull
    · subst hA
      exact (h.pull.arrive ht (harriveP rfl)).1
    · by_cases hL : tag = some .leavePull
      · subst hL
        obtain ⟨hturn, hfull⟩ := hleaveP rfl
        rcases h.pull.leave ht hturn hfull with ⟨hlast, -, hgen⟩ | ⟨hlast, hgen⟩
        · simpa [resetsPull, hlast] using hgen
        · simpa [resetsPull, hlast] using hgen
      · simpa [resetsPull, hA, hL] using h.pull
  · rw [hpush, hcount, hcount]
    by_cases hA : tag = some .arrivePush
    · subst hA
      exact (h.push.arrive ht (harriveQ rfl)).1
    · by_cases hL : tag = some .leavePush
      · subst hL
        obtain ⟨hturn, hfull⟩ := hleaveQ rfl
        rcases h.push.leave ht hturn hfull with ⟨hlast, -, hgen⟩ | ⟨hlast, hgen⟩
        · simpa [resetsPush, hlast] using hgen
        · simpa [resetsPush, hlast] using hgen
      · simpa [resetsPush, hA, hL] using h.push
  · by_cases hvt : v = t
    · subst hvt
      exact hmove.metPull (h.metPull v hv) hmet
    · rw [← metPull_settled, hothers v hvt, metPull_settled] at hmet
      have hfull := h.metPull v hv hmet
      rw [hpull]
      by_cases hA : tag = some .arrivePull
      · exact absurd hfull (h.pull.arrive ht (harriveP hA)).2.ne
      · by_cases hL : tag = some .leavePull
        · rw [if_neg hA, if_pos hL]
          obtain ⟨hturn, -⟩ := hleaveP hL
          rcases h.pull.leave ht hturn hfull with ⟨-, hall, -⟩ | ⟨hlast, -⟩
          · -- the last one to leave has left nobody behind
            have hv' := hall v hv
            rw [advance_of_ne _ hvt] at hv'
            have := h.gP_eq hv ((h.shape v hv).of_metPull hmet)
            omega
          · rw [Barrier.leave, hlast]
            exact hfull
        · rw [if_neg hA, if_neg hL]
          exact hfull
  · by_cases hvt : v = t
    · subst hvt
      exact hmove.metPush hmet
    · rw [← metPush_settled, hothers v hvt, metPush_settled] at hmet
      have hfull := h.metPush v hv hmet
      rw [hpush]
      by_cases hA : tag = some .arrivePush
      · exact absurd hfull (h.push.arrive ht (harriveQ hA)).2.ne
      · by_cases hL : tag = some .leavePush
        · rw [if_neg hA, if_pos hL]
          obtain ⟨hturn, -⟩ := hleaveQ hL
          rcases h.push.leave ht hturn hfull with ⟨-, hall, -⟩ | ⟨hlast, -⟩
          · have hv' := hall v hv
            rw [advance_of_ne _ hvt] at hv'
            have := h.gQ_eq hv ((h.shape v hv).of_metPush hmet)
            omega
          · rw [Barrier.leave, hlast]
            exact hfull
        · rw [if_neg hA, if_neg hL]
          exact hfull

end Step

end FlexPS.ML
