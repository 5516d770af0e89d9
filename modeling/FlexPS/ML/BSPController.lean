import FlexPS.ML.ConsistencyController

/-!
# The BSP controller

`BSPConsistencyController` lets all threads pull, then lets all threads push, and so on.  One
boolean tells which phase it is, and a counter of finished pulls and one of finished pushes tell
when the last thread of a phase is through.

## Main definitions

* `BSPController`, `bspController` — the data and the calls.
* `phaseOp`, `phasesDone` — what the phases are for, and how many a thread has finished.
* `BSPControlInv` — the invariant.
* `bspController_correct` — the rounds of pulls and pushes do not overlap, the counters stay below
  the number of threads, no thread is more than a phase ahead, and the threads do not all sleep.
-/

namespace FlexPS.ML

open Lib

/-- `BSPConsistencyController`. -/
structure BSPController where
  numLocalWorkers : ℕ
  pushCount : ℕ
  pullCount : ℕ
  replyPhase : Bool
  deriving DecidableEq, Repr

namespace BSPController

/-- `Init`. -/
def init (numLocalWorkers : ℕ) : BSPController := ⟨numLocalWorkers, 0, 0, true⟩

/-- `AfterPush`, and whether it notifies. -/
def afterPush (c : BSPController) : BSPController × Bool :=
  let pushCount := c.pushCount + 1
  if pushCount = c.numLocalWorkers then ({ c with pushCount := 0, replyPhase := true }, true)
  else ({ c with pushCount }, false)

/-- `AfterPull`, and whether it notifies. -/
def afterPull (c : BSPController) : BSPController × Bool :=
  let pullCount := c.pullCount + 1
  if pullCount = c.numLocalWorkers then ({ c with pullCount := 0, replyPhase := false }, true)
  else ({ c with pullCount }, false)

end BSPController

/-- The calls: a push waits while it is the reply phase, a pull while it is not. -/
def bspController : ConsistencyController BSPController ControlOp where
  before c _ op := some (c, op)
  passes c op := match op with
    | .pull => c.replyPhase
    | .push => !c.replyPhase
  after c _ op := match op with
    | .pull => some c.afterPull
    | .push => some c.afterPush

/-! ## Phases -/

/-- The phases alternate, starting with pulls. -/
def phaseOp (n : ℕ) : ControlOp := if n % 2 = 0 then .pull else .push

/-- How many phases a thread has finished. -/
def phasesDone (history : List ControlEvent) (t : ℕ) : ℕ :=
  finished history .pull t + finished history .push t

@[simp] theorem phasesDone_entered (history : List ControlEvent) (t : ℕ) (op : ControlOp) :
    phasesDone (history ++ [.entered t op]) = phasesDone history := by
  funext v
  simp only [phasesDone, finished_entered]

theorem phasesDone_left (history : List ControlEvent) (t : ℕ) (op : ControlOp) :
    phasesDone (history ++ [.left t op]) = advance (phasesDone history) t := by
  funext v
  simp only [phasesDone, finished_left]
  by_cases hv : v = t
  · subst hv
    cases op <;> simp [phasesDone] <;> omega
  · cases op <;> simp [phasesDone, advance_of_ne _ hv]

/-- A thread pulls and pushes in turns. -/
def ControlInput.InTurn (history : List ControlEvent) : ControlInput → Prop
  | before t op => op = phaseOp (phasesDone history t)
  | _ => True

instance ControlInput.decidableInTurn (history : List ControlEvent) (i : ControlInput) :
    Decidable (i.InTurn history) := by
  cases i <;> unfold ControlInput.InTurn <;> infer_instance

/-- How often a thread that has finished `n` phases has finished an operation. -/
def timesIn (op : ControlOp) (n : ℕ) : ℕ :=
  match op with
  | .pull => (n + 1) / 2
  | .push => n / 2

theorem timesIn_succ (op : ControlOp) (n : ℕ) :
    timesIn op (n + 1) = timesIn op n + if op = phaseOp n then 1 else 0 := by
  cases op <;> simp only [timesIn, phaseOp]
  · split <;> simp <;> omega
  · split <;> simp <;> omega

/-- The data in phase `g`, which `n` threads have finished. -/
structure BSPController.InPhase (N g n : ℕ) (c : BSPController) : Prop where
  workers : c.numLocalWorkers = N
  replyPhase : c.replyPhase = decide (phaseOp g = .pull)
  pullCount : c.pullCount = if phaseOp g = .pull then n else 0
  pushCount : c.pushCount = if phaseOp g = .push then n else 0
  lt : n < N

namespace BSPController

variable {N g n : ℕ} {c : BSPController}

theorem inPhase_init (hN : 0 < N) : InPhase N 0 0 (init N) := ⟨rfl, rfl, rfl, rfl, hN⟩

/-- `Before…` returns in the phase of the operation. -/
theorem InPhase.passes (h : InPhase N g n c) (op : ControlOp) :
    bspController.passes c op = decide (op = phaseOp g) := by
  have hreply := h.replyPhase
  unfold phaseOp at hreply ⊢
  cases op <;> by_cases hg : g % 2 = 0 <;> simp [bspController, hreply, hg]

theorem phaseOp_succ (g : ℕ) : phaseOp (g + 1) ≠ phaseOp g := by
  unfold phaseOp
  by_cases hg : g % 2 = 0
  · rw [if_pos hg, if_neg (by omega)]
    nofun
  · rw [if_neg hg, if_pos (by omega)]
    nofun

/-- **What `After…` does** in its phase: the thread is counted, and the last thread of the phase
begins the next one and notifies. -/
theorem InPhase.after (h : InPhase N g n c) (t : ℕ) : ∃ c' last,
    bspController.after c t (phaseOp g) = some (c', last) ∧
      ((last = true ∧ n + 1 = N ∧ InPhase N (g + 1) 0 c') ∨
        (last = false ∧ n + 1 < N ∧ InPhase N g (n + 1) c')) := by
  have hnext := phaseOp_succ g
  have hlt := h.lt
  cases hop : phaseOp g with
  | pull =>
      have hnextOp : phaseOp (g + 1) = .push := by
        rw [hop] at hnext
        cases hg : phaseOp (g + 1) with
        | pull => exact absurd hg hnext
        | push => rfl
      have hpull : c.pullCount = n := by rw [h.pullCount, if_pos hop]
      have hpush : c.pushCount = 0 := by rw [h.pushCount, if_neg (by rw [hop]; nofun)]
      refine ⟨c.afterPull.1, c.afterPull.2, rfl, ?_⟩
      unfold afterPull
      simp only [hpull]
      split
      · next hlast =>
          exact .inl ⟨rfl, hlast.trans h.workers, h.workers, by simp [hnextOp], by simp, by simp [hpush],
            by omega⟩
      · next hmore =>
          have hlt' : n + 1 < N := lt_of_le_of_ne hlt (h.workers ▸ hmore)
          exact .inr ⟨rfl, hlt', h.workers, by simp [h.replyPhase], by simp [hop],
            by simp [hop, hpush], by omega⟩
  | push =>
      have hnextOp : phaseOp (g + 1) = .pull := by
        rw [hop] at hnext
        cases hg : phaseOp (g + 1) with
        | pull => rfl
        | push => exact absurd hg hnext
      have hpush : c.pushCount = n := by rw [h.pushCount, if_pos hop]
      have hpull : c.pullCount = 0 := by rw [h.pullCount, if_neg (by rw [hop]; nofun)]
      refine ⟨c.afterPush.1, c.afterPush.2, rfl, ?_⟩
      unfold afterPush
      simp only [hpush]
      split
      · next hlast =>
          exact .inl ⟨rfl, hlast.trans h.workers, h.workers, by simp [hnextOp], by simp [hpull], by simp,
            by omega⟩
      · next hmore =>
          have hlt' : n + 1 < N := lt_of_le_of_ne hlt (h.workers ▸ hmore)
          exact .inr ⟨rfl, hlt', h.workers, by simp [h.replyPhase], by simp [hop, hpull],
            by simp [hop], by omega⟩

end BSPController

/-! ## The invariant -/

/-- What has to hold when `Before…` returns to a thread that has finished the operation `k` times:
before a pull every thread has finished `k` pushes and started no more, before a push every thread
has finished `k + 1` pulls and started no more. -/
def Separated (N : ℕ) (before : List ControlEvent) : ControlEvent → Prop
  | .entered t .pull => ∀ v < N, finished before .push v = finished before .pull t ∧
      started before .push v = finished before .pull t
  | .entered t .push => ∀ v < N, finished before .pull v = finished before .push t + 1 ∧
      started before .pull v = finished before .push t + 1
  | .left _ _ => True

/-- The invariant in phase `g`. -/
structure BSPControlInv (N g : ℕ) (history : List ControlEvent)
    (sys : ControlSystem BSPController ControlOp) : Prop where
  data : sys.state.InPhase N g (past (Finset.range N) (phasesDone history) g)
  slowest : Slowest (Finset.range N) (phasesDone history) g
  bounded : ∀ t < N, phasesDone history t ≤ g + 1
  finished_eq : ∀ t < N, ∀ op, finished history op t = timesIn op (phasesDone history t)
  started_eq : ∀ t < N, ∀ op, started history op t = timesIn op (phasesDone history t) +
    if sys.threads t = .inside op then 1 else 0
  waiting : ∀ t < N, ∀ op r, (sys.threads t).waiting = some (op, r) →
    r = op ∧ op = phaseOp (phasesDone history t)
  inside : ∀ t < N, ∀ op, sys.threads t = .inside op →
    op = phaseOp g ∧ phasesDone history t = g
  attentive : Attentive bspController sys
  separated : Throughout (Separated N) history

section Invariant

variable {N g : ℕ} {history o : List ControlEvent} {sys sys' : ControlSystem BSPController ControlOp}

theorem bspControlInv_init (hN : 0 < N) : BSPControlInv N 0 [] (.init (.init N)) where
  data := by
    have hpast : past (Finset.range N) (phasesDone []) 0 = 0 :=
      past_zero_of_forall fun _ _ => le_rfl
    rw [hpast]
    exact BSPController.inPhase_init hN
  slowest := ⟨fun _ _ => Nat.zero_le _, 0, Finset.mem_range.mpr hN, rfl⟩
  bounded _ _ := Nat.zero_le _
  finished_eq _ _ op := by cases op <;> simp [finished, phasesDone, timesIn]
  started_eq _ _ op := by
    cases op <;> simp [started, finished, phasesDone, timesIn, ControlSystem.init]
  waiting := nofun
  inside := nofun
  attentive := attentive_init _ _
  separated := throughout_nil _

/-- Who is let in has not finished the phase. -/
theorem BSPControlInv.done_eq (h : BSPControlInv N g history sys) {t : ℕ} (ht : t < N)
    (hpass : bspController.passes sys.state (phaseOp (phasesDone history t)) = true) :
    phasesDone history t = g := by
  rw [h.data.passes, decide_eq_true_eq] at hpass
  have hle := h.slowest.le t (Finset.mem_range.mpr ht)
  have hge := h.bounded t ht
  rcases Nat.lt_or_ge g (phasesDone history t) with hlt | hge'
  · rw [show phasesDone history t = g + 1 by omega] at hpass
    exact absurd hpass (BSPController.phaseOp_succ g)
  · omega

/-- Then the other operation has been finished by everybody, as often as it has to be. -/
theorem BSPControlInv.apart (h : BSPControlInv N g history sys) {t : ℕ} (ht : t < N)
    (hdone : phasesDone history t = g) : Separated N history (.entered t (phaseOp g)) := by
  -- nobody is inside the other operation
  have hothers : ∀ v < N, ∀ op ≠ phaseOp g, started history op v = finished history op v := by
    intro v hv op hop
    rw [h.started_eq v hv, h.finished_eq v hv, if_neg fun hin => hop (h.inside v hv op hin).1]
    rfl
  have hcases : ∀ v < N, phasesDone history v = g ∨ phasesDone history v = g + 1 := by
    intro v hv
    have := h.slowest.le v (Finset.mem_range.mpr hv)
    have := h.bounded v hv
    omega
  unfold phaseOp at hothers ⊢
  by_cases hg : g % 2 = 0
  · rw [if_pos hg] at hothers ⊢
    intro v hv
    have hpush : finished history .push v = finished history .pull t := by
      rw [h.finished_eq v hv, h.finished_eq t ht, hdone, timesIn, timesIn]
      rcases hcases v hv with hv' | hv'
      · rw [hv']
        omega
      · rw [hv']
    exact ⟨hpush, (hothers v hv .push nofun).trans hpush⟩
  · rw [if_neg hg] at hothers ⊢
    intro v hv
    have hpull : finished history .pull v = finished history .push t + 1 := by
      rw [h.finished_eq v hv, h.finished_eq t ht, hdone, timesIn, timesIn]
      rcases hcases v hv with hv' | hv' <;> rw [hv'] <;> omega
    exact ⟨hpull, (hothers v hv .pull nofun).trans hpull⟩

/-- A thread is let in. -/
theorem BSPControlInv.enter (h : BSPControlInv N g history sys) {t : ℕ} (ht : t < N)
    (hout : ∀ op, sys.threads t ≠ .inside op)
    (hpass : bspController.passes sys.state (phaseOp (phasesDone history t)) = true)
    (hstate : sys'.state = sys.state)
    (hothers : ∀ v ≠ t, (sys'.threads v).waiting = (sys.threads v).waiting ∧
      ∀ op, sys'.threads v = .inside op ↔ sys.threads v = .inside op)
    (hself : sys'.threads t = .inside (phaseOp (phasesDone history t)))
    (hattentive : Attentive bspController sys') :
    BSPControlInv N g (history ++ [.entered t (phaseOp (phasesDone history t))]) sys' := by
  have hdone := h.done_eq ht hpass
  rw [hdone] at hself ⊢
  have hphases := phasesDone_entered history t (phaseOp g)
  refine ⟨?_, ?_, ?_, fun v hv op => ?_, fun v hv op => ?_, fun v hv op r hr => ?_,
    fun v hv op hop => ?_, hattentive, throughout_snoc.mpr ⟨h.separated, h.apart ht hdone⟩⟩
  · rw [hphases, hstate]
    exact h.data
  · rw [hphases]
    exact h.slowest
  · rw [hphases]
    exact h.bounded
  · rw [hphases, finished_entered]
    exact h.finished_eq v hv op
  · rw [hphases, started_entered]
    by_cases hvt : v = t
    · subst hvt
      have hold := h.started_eq v hv op
      rw [if_neg (hout op)] at hold
      rw [hself]
      by_cases hop : phaseOp g = op
      · rw [if_pos hop, advance_self, hold, if_pos (by rw [hop])]
      · rw [if_neg hop, hold, if_neg (by simpa using hop)]
    · have hsame : (if phaseOp g = op then advance (started history op) t else started history op) v =
          started history op v := by
        split
        · exact advance_of_ne _ hvt
        · rfl
      rw [hsame, h.started_eq v hv]
      simp only [(hothers v hvt).2 op]
  · by_cases hvt : v = t
    · subst hvt
      rw [hself] at hr
      cases hr
    · rw [(hothers v hvt).1] at hr
      rw [hphases]
      exact h.waiting v hv op r hr
  · rw [hphases]
    by_cases hvt : v = t
    · subst hvt
      rw [hself, ControlPhase.inside.injEq] at hop
      exact ⟨hop.symm, hdone⟩
    · exact h.inside v hv op (((hothers v hvt).2 op).mp hop)

/-- A step of a thread that shows nothing and changes no data. -/
theorem BSPControlInv.keep (h : BSPControlInv N g history sys) {t : ℕ}
    (hout : ∀ op, sys.threads t ≠ .inside op) (hstate : sys'.state = sys.state)
    (hothers : ∀ v ≠ t, (sys'.threads v).waiting = (sys.threads v).waiting ∧
      ∀ op, sys'.threads v = .inside op ↔ sys.threads v = .inside op)
    (hwaiting : ∀ op r, (sys'.threads t).waiting = some (op, r) →
      r = op ∧ op = phaseOp (phasesDone history t))
    (hout' : ∀ op, sys'.threads t ≠ .inside op) (hattentive : Attentive bspController sys') :
    BSPControlInv N g history sys' := by
  have hinside : ∀ v op, sys'.threads v = .inside op ↔ sys.threads v = .inside op := by
    intro v op
    by_cases hvt : v = t
    · subst hvt
      exact iff_of_false (hout' op) (hout op)
    · exact (hothers v hvt).2 op
  refine ⟨hstate ▸ h.data, h.slowest, h.bounded, h.finished_eq, fun v hv op => ?_,
    fun v hv op r hr => ?_, fun v hv op hop => h.inside v hv op ((hinside v op).mp hop),
    hattentive, h.separated⟩
  · rw [h.started_eq v hv]
    simp only [hinside]
  · by_cases hvt : v = t
    · subst hvt
      exact hwaiting op r hr
    · rw [(hothers v hvt).1] at hr
      exact h.waiting v hv op r hr

/-- A thread finishes its operation; the last one ends the phase. -/
theorem BSPControlInv.leave (h : BSPControlInv N g history sys) {t : ℕ} (ht : t < N)
    {op : ControlOp} {last : Bool} (hinside : sys.threads t = .inside op)
    (hafter : bspController.after sys.state t op = some (sys'.state, last))
    (hothers : ∀ v ≠ t, (sys'.threads v).waiting = (sys.threads v).waiting ∧
      ∀ op, sys'.threads v = .inside op ↔ sys.threads v = .inside op)
    (hself : sys'.threads t = .outside) (hattentive : Attentive bspController sys') :
    ∃ g', BSPControlInv N g' (history ++ [.left t op]) sys' := by
  obtain ⟨rfl, hdone⟩ := h.inside t ht op hinside
  have hmem : t ∈ Finset.range N := Finset.mem_range.mpr ht
  have hphases := phasesDone_left history t (phaseOp g)
  have hpast : past (Finset.range N) (advance (phasesDone history) t) g =
      past (Finset.range N) (phasesDone history) g + 1 := by
    rw [past_advance hmem, if_pos hdone.symm]
  have hbounded : ∀ v < N, advance (phasesDone history) t v ≤ g + 1 := by
    intro v hv
    by_cases hvt : v = t
    · subst hvt
      rw [advance_self, hdone]
    · rw [advance_of_ne _ hvt]
      exact h.bounded v hv
  have hfinished : ∀ v < N, ∀ op, finished (history ++ [.left t (phaseOp g)]) op v =
      timesIn op (advance (phasesDone history) t v) := by
    intro v hv op
    rw [finished_left]
    by_cases hvt : v = t
    · subst hvt
      rw [advance_self, timesIn_succ, hdone]
      by_cases hop : phaseOp g = op
      · rw [if_pos hop, advance_self, h.finished_eq v hv, hdone, if_pos hop.symm]
      · rw [if_neg hop, h.finished_eq v hv, hdone, if_neg (Ne.symm hop)]
        rfl
    · rw [advance_of_ne _ hvt, ← h.finished_eq v hv]
      split
      · exact advance_of_ne _ hvt
      · rfl
  have hstarted : ∀ v < N, ∀ op, started (history ++ [.left t (phaseOp g)]) op v =
      timesIn op (advance (phasesDone history) t v) +
        if sys'.threads v = .inside op then 1 else 0 := by
    intro v hv op
    rw [started_left, h.started_eq v hv]
    by_cases hvt : v = t
    · subst hvt
      rw [hinside, hself, advance_self, timesIn_succ, hdone]
      by_cases hop : op = phaseOp g
      · simp [hop]
      · simp [hop, Ne.symm hop]
    · rw [advance_of_ne _ hvt]
      simp only [(hothers v hvt).2 op]
  have hwaiting : ∀ v < N, ∀ op r, (sys'.threads v).waiting = some (op, r) →
      r = op ∧ op = phaseOp (advance (phasesDone history) t v) := by
    intro v hv op r hr
    by_cases hvt : v = t
    · subst hvt
      rw [hself] at hr
      cases hr
    · rw [(hothers v hvt).1] at hr
      rw [advance_of_ne _ hvt]
      exact h.waiting v hv op r hr
  have hstill : ∀ v < N, ∀ op, sys'.threads v = .inside op →
      v ≠ t ∧ op = phaseOp g ∧ phasesDone history v = g := by
    intro v hv op hop
    have hvt : v ≠ t := by
      rintro rfl
      rw [hself] at hop
      cases hop
    exact ⟨hvt, h.inside v hv op (((hothers v hvt).2 op).mp hop)⟩
  obtain ⟨c', last', heq, hcases⟩ := h.data.after t
  obtain ⟨rfl, rfl⟩ := Prod.mk.inj (Option.some.inj (heq.symm.trans hafter))
  rcases hcases with ⟨-, hN, hdata⟩ | ⟨-, hN, hdata⟩
  · -- everybody is past the phase
    have hall : past (Finset.range N) (advance (phasesDone history) t) g =
        (Finset.range N).card := by
      rw [hpast, Finset.card_range, hN]
    have hlow := past_eq_card_iff.mp hall
    have hzero : past (Finset.range N) (advance (phasesDone history) t) (g + 1) = 0 :=
      past_zero_of_forall fun v hv => hbounded v (Finset.mem_range.mp hv)
    refine ⟨g + 1, ?_, ?_, fun v hv => ?_, ?_, ?_, ?_, fun v hv op hop => ?_, hattentive,
      throughout_snoc.mpr ⟨h.separated, trivial⟩⟩
    · rw [hphases, hzero]
      exact hdata
    · rw [hphases]
      exact (h.slowest.advance_of_past hmem hall).1
    · rw [hphases]
      exact (hbounded v hv).trans (Nat.le_succ _)
    · rw [hphases]
      exact hfinished
    · rw [hphases]
      exact hstarted
    · rw [hphases]
      exact hwaiting
    · obtain ⟨hvt, -, hv'⟩ := hstill v hv op hop
      have := hlow v (Finset.mem_range.mpr hv)
      rw [advance_of_ne _ hvt] at this
      omega
  · refine ⟨g, ?_, ?_, ?_, ?_, ?_, ?_, fun v hv op hop => ?_, hattentive,
      throughout_snoc.mpr ⟨h.separated, trivial⟩⟩
    · rw [hphases, hpast]
      exact hdata
    · rw [hphases]
      refine h.slowest.advance_of_not_past ?_
      rw [hpast, Finset.card_range]
      exact hN.ne
    · rw [hphases]
      exact hbounded
    · rw [hphases]
      exact hfinished
    · rw [hphases]
      exact hstarted
    · rw [hphases]
      exact hwaiting
    · obtain ⟨hvt, hop, hv'⟩ := hstill v hv op hop
      rw [hphases, advance_of_ne _ hvt]
      exact ⟨hop, hv'⟩

/-- No wakeup is lost. -/
theorem BSPControlInv.attentive_step (h : BSPControlInv N g history sys) {i : ControlInput}
    (hstep : controlStep bspController sys i = some (sys', o)) :
    Attentive bspController sys' := by
  refine ML.attentive_step h.attentive (fun op state' r hbefore x => ?_)
    (fun op state' hafter x hx => ?_) hstep
  · obtain ⟨rfl, -⟩ := Prod.mk.inj (Option.some.inj hbefore)
    rfl
  · -- without a notification the phase stays
    have hreply : state'.replyPhase = sys.state.replyPhase := by
      cases op with
      | pull =>
          simp only [bspController, BSPController.afterPull] at hafter
          split at hafter
          · cases hafter
          · cases hafter
            rfl
      | push =>
          simp only [bspController, BSPController.afterPush] at hafter
          split at hafter
          · cases hafter
          · cases hafter
            rfl
    simp only [bspController, hreply] at hx ⊢
    exact hx

/-- **A step keeps the invariant**, in the same phase or the next one. -/
theorem bspControlInv_step (h : BSPControlInv N g history sys) {i : ControlInput}
    (hi : i.thread < N) (hturn : i.InTurn history)
    (hstep : controlStep bspController sys i = some (sys', o)) :
    ∃ g', BSPControlInv N g' (history ++ o) sys' := by
  have hothers : ∀ v ≠ i.thread, _ := fun v hv => controlStep_others hstep hv
  have hattentive := h.attentive_step hstep
  obtain ⟨phase', notify, hmove, hthreads⟩ := controlStep_move hstep
  have hself : sys'.threads i.thread = phase' := by rw [hthreads, Function.update_self]
  have hwaiting := h.waiting _ hi
  generalize hphase : sys.threads i.thread = phase at hmove hwaiting
  generalize hstate : sys'.state = state' at hmove
  cases hmove with
  | @enter t op _ r hi' hbefore hpass =>
      subst hi'
      obtain rfl : op = phaseOp (phasesDone history t) := hturn
      obtain ⟨rfl, rfl⟩ := Prod.mk.inj (Option.some.inj hbefore)
      exact ⟨g, h.enter hi (fun _ => hphase.trans_ne nofun) hpass hstate hothers hself hattentive⟩
  | @sleep t op _ r hi' hbefore hwait =>
      subst hi'
      obtain ⟨rfl, rfl⟩ := Prod.mk.inj (Option.some.inj hbefore)
      rw [List.append_nil]
      refine ⟨g, h.keep (fun _ => hphase.trans_ne nofun) hstate hothers ?_
        (fun _ => hself.trans_ne nofun) hattentive⟩
      rw [hself]
      intro op' r hr
      obtain ⟨rfl, rfl⟩ := Prod.mk.inj (Option.some.inj hr)
      exact ⟨rfl, hturn⟩
  | @retry op r hpass =>
      obtain ⟨rfl, rfl⟩ := hwaiting op r rfl
      exact ⟨g, h.enter hi (fun _ => hphase.trans_ne nofun) hpass hstate hothers hself hattentive⟩
  | @again op r hwait =>
      rw [List.append_nil]
      exact ⟨g, h.keep (fun _ => hphase.trans_ne nofun) hstate hothers (hself ▸ hwaiting)
        (fun _ => hself.trans_ne nofun) hattentive⟩
  | @wake op r =>
      rw [List.append_nil]
      exact ⟨g, h.keep (fun _ => hphase.trans_ne nofun) hstate hothers (hself ▸ hwaiting)
        (fun _ => hself.trans_ne nofun) hattentive⟩
  | @leave op _ notify hafter =>
      subst hstate
      exact h.leave hi hphase hafter hothers hself hattentive

/-- **`BSPConsistencyController`.**  In every run of `N` threads that pull and push in turns, in
whatever order their steps are taken: every pull of a round comes after all pushes of the round
before and before any push of its own round, the counters stay below `N`, no thread is more than a
phase ahead of another, and the threads do not all sleep. -/
theorem bspController_correct (hN : 0 < N) {is : List ControlInput} {out : List ControlEvent}
    (hvalid : Along (controlStep bspController)
      (fun before _ i => i.thread < N ∧ i.InTurn before) [] (.init (.init N)) is)
    (hrun : run (controlStep bspController) (.init (.init N)) is = some (sys, out)) :
    Throughout (Separated N) out ∧
    (sys.state.pushCount < N ∧ sys.state.pullCount < N) ∧
    (∀ t < N, ∀ v < N, phasesDone out t ≤ phasesDone out v + 1) ∧
    ¬ ∀ t < N, (sys.threads t).sleeps = true := by
  have hinv := run_along (I := fun history sys => ∃ g, BSPControlInv N g history sys) ?_
    ⟨0, bspControlInv_init hN⟩ hvalid hrun
  · obtain ⟨g, hinv⟩ := hinv
    rw [List.nil_append] at hinv
    refine ⟨hinv.separated, ⟨?_, ?_⟩, fun t ht v hv => ?_, fun hall => ?_⟩
    · rw [hinv.data.pushCount]
      split
      · exact hinv.data.lt
      · exact hN
    · rw [hinv.data.pullCount]
      split
      · exact hinv.data.lt
      · exact hN
    · have hle := hinv.bounded t ht
      have hge := hinv.slowest.le v (Finset.mem_range.mpr hv)
      omega
    · -- the slowest thread is in its phase
      obtain ⟨t, ht, hslow⟩ := hinv.slowest.attained
      have htN := Finset.mem_range.mp ht
      have hsleeps := hall t htN
      cases hphase : sys.threads t with
      | asleep op r =>
          obtain ⟨rfl, rfl⟩ := hinv.waiting t htN op r (by rw [hphase]; rfl)
          have hfail := hinv.attentive t _ _ hphase
          rw [hinv.data.passes, hslow, decide_eq_false_iff_not] at hfail
          exact hfail rfl
      | _ =>
          rw [hphase] at hsleeps
          cases hsleeps
  · rintro out s i s' o ⟨g, hI⟩ hi hstep
    exact bspControlInv_step hI hi.1 hi.2 hstep

end Invariant

/-- Two threads: the first one pulls and waits to push until the second one has pulled. -/
def bspWait : List ControlInput :=
  [.before 0 .pull, .after 0, .before 0 .push, .before 1 .pull, .after 1, .check 0, .after 0]

theorem bspController_correct_bspWait : ∃ sys out,
    run (controlStep bspController) (.init (.init 2)) bspWait = some (sys, out) ∧
    out = [.entered 0 .pull, .left 0 .pull, .entered 1 .pull, .left 1 .pull, .entered 0 .push,
      .left 0 .push] ∧ Throughout (Separated 2) out := by
  have hrun : run (controlStep bspController) (.init (.init 2)) bspWait = some (_,
      [.entered 0 .pull, .left 0 .pull, .entered 1 .pull, .left 1 .pull, .entered 0 .push,
        .left 0 .push]) := rfl
  have hvalid : Along (controlStep bspController)
      (fun before _ i => i.thread < 2 ∧ i.InTurn before) [] (.init (.init 2)) bspWait := by
    iterate 7 apply along_cons rfl (by decide)
    trivial
  exact ⟨_, _, hrun, rfl, (bspController_correct (by decide) hvalid hrun).1⟩

end FlexPS.ML
