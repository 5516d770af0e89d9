import FlexPS.Lib.Growable
import FlexPS.Lib.Progress
import FlexPS.ML.ConsistencyController
import Mathlib.Data.List.MinMax

/-!
# The SSP controller

`SSPConsistencyController` counts the pushes of every thread.  A thread that is more than
`staleness_` pushes ahead of the slowest one has to wait.  The least number of pushes is kept in
`min_clock_`, which a table of counts tells when to advance.

## Main definitions

* `SSPController`, `sspController` — the data and the calls.
* `SSPController.Counts` — the data tell the pushes of every thread.
* `SSPControlInv` — the invariant.
* `sspController_correct` — the clock is the minimum, the staleness bounds hold, no access is out
  of bounds, and the threads do not all sleep.
-/

namespace FlexPS.ML

open Lib

/-- `SSPConsistencyController`. -/
structure SSPController where
  numLocalWorkers : ℕ
  workerProgress : List ℕ
  clockCount : List ℕ
  staleness : ℕ
  minClock : ℕ
  deriving DecidableEq, Repr

namespace SSPController

/-- `Init`. -/
def init (staleness numLocalWorkers : ℕ) : SSPController where
  numLocalWorkers := numLocalWorkers
  workerProgress := grow [] numLocalWorkers
  clockCount := []
  staleness := staleness
  minClock := 0

/-- `wait` up to its loop: `expected_min_lock`. -/
def expectedMinLock (c : SSPController) (tid : ℕ) : Option (SSPController × ℤ) := do
  let workerProgress :=
    if tid ≥ c.workerProgress.length then grow c.workerProgress (tid + 1) else c.workerProgress
  let progress ← workerProgress[tid]?
  some ({ c with workerProgress }, progress - c.staleness)

/-- The test of `AfterPush`: the caller was the last one at `min_clock_`. -/
def lastAtMinClock (c : SSPController) (progress : ℕ) (clockCount : List ℕ) : Option Bool :=
  if progress = c.minClock then clockCount[c.minClock]?.map fun n => n == c.numLocalWorkers
  else some false

/-- `AfterPush`, and whether it notifies. -/
def afterPush (c : SSPController) (tid : ℕ) : Option (SSPController × Bool) := do
  let workerProgress :=
    if tid > c.workerProgress.length then grow c.workerProgress (tid + 1) else c.workerProgress
  let progress ← workerProgress[tid]?
  let clockCount :=
    if progress ≥ c.clockCount.length then grow c.clockCount (progress + 1) else c.clockCount
  let count ← clockCount[progress]?
  let clockCount := clockCount.set progress (count + 1)
  let last ← c.lastAtMinClock progress clockCount
  let minClock := if last then c.minClock + 1 else c.minClock
  let workerProgress := workerProgress.set tid (progress + 1)
  some ({ c with workerProgress, clockCount, minClock }, last)

end SSPController

/-- The calls; `AfterPull` does nothing. -/
def sspController : ConsistencyController SSPController ℤ where
  before c t _ := c.expectedMinLock t
  passes c expected := expected ≤ c.minClock
  after c t op := match op with
    | .pull => some (c, false)
    | .push => c.afterPush t

/-! ## The data -/

namespace SSPController

/-- The data tell the pushes of every thread, which `n` counts. -/
structure Counts (N : ℕ) (n : ℕ → ℕ) (c : SSPController) : Prop where
  workers : c.numLocalWorkers = N
  progress : c.workerProgress = (List.range N).map n
  counts : ∀ x, slot c.clockCount x = past (Finset.range N) n x
  slowest : Slowest (Finset.range N) n c.minClock

variable {N t : ℕ} {n : ℕ → ℕ} {c : SSPController}

theorem counts_init (hN : 0 < N) (staleness : ℕ) : Counts N (fun _ => 0) (init staleness N) where
  workers := rfl
  progress := by
    rw [List.map_const', List.length_range]
    rfl
  counts x := (past_zero_of_forall fun _ _ => Nat.zero_le x).symm
  slowest := ⟨fun _ _ => Nat.zero_le _, 0, Finset.mem_range.mpr hN, rfl⟩

theorem Counts.progress_get (h : Counts N n c) (ht : t < N) :
    t < c.workerProgress.length ∧ c.workerProgress[t]? = some (n t) := by
  rw [h.progress]
  simp [ht]

/-- A thread waits for the clock `staleness` before its own. -/
theorem Counts.expectedMinLock_eq (h : Counts N n c) (ht : t < N) :
    c.expectedMinLock t = some (c, (n t : ℤ) - c.staleness) := by
  obtain ⟨hlt, hget⟩ := h.progress_get ht
  simp [expectedMinLock, not_le.mpr hlt, hget]

/-- The clock is the least progress. -/
theorem Counts.min_eq (h : Counts N n c) : c.workerProgress.min? = some c.minClock := by
  obtain ⟨hle, t, ht, hmin⟩ := h.slowest
  rw [List.min?_eq_some_iff, h.progress]
  constructor
  · exact List.mem_map.mpr ⟨t, List.mem_range.mpr (Finset.mem_range.mp ht), hmin⟩
  · intro x hx
    obtain ⟨v, hv, rfl⟩ := List.mem_map.mp hx
    exact hle v (Finset.mem_range.mpr (List.mem_range.mp hv))

theorem getElem?_of_lt {v : List ℕ} {i : ℕ} (hi : i < v.length) : v[i]? = some (slot v i) := by
  rw [slot, List.getD_eq_getElem?_getD, List.getElem?_eq_getElem hi, Option.getD_some]

/-- A write after the resize. -/
theorem slot_set {v : List ℕ} {i : ℕ} (hi : i < v.length) (x j : ℕ) :
    slot (v.set i x) j = if j = i then x else slot v j := by
  rw [slot, List.getD_eq_getElem?_getD, List.getElem?_set]
  by_cases hj : j = i
  · subst hj
    simp [hi]
  · rw [if_neg (Ne.symm hj), if_neg hj, slot, List.getD_eq_getElem?_getD]

/-- **What `AfterPush` does**: one more push of the thread is counted, and the sleepers are
notified when the clock has advanced. -/
theorem Counts.afterPush (h : Counts N n c) (ht : t < N) : ∃ c' last,
    c.afterPush t = some (c', last) ∧ Counts N (advance n t) c' ∧ c'.staleness = c.staleness ∧
      c.minClock ≤ c'.minClock ∧ (last = false → c'.minClock = c.minClock) := by
  obtain ⟨hlt, hget⟩ := h.progress_get ht
  have hmem : t ∈ Finset.range N := Finset.mem_range.mpr ht
  -- the table after the resize
  obtain ⟨counts, hcounts, hlong, hslot⟩ : ∃ counts,
      (if n t ≥ c.clockCount.length then grow c.clockCount (n t + 1) else c.clockCount) = counts ∧
        n t < counts.length ∧ ∀ x, slot counts x = past (Finset.range N) n x := by
    refine ⟨_, rfl, ?_, fun x => ?_⟩
    · split
      · rw [length_grow]
        omega
      · omega
    · split
      · rw [slot_grow, h.counts]
      · exact h.counts x
  have hnew : ∀ x, slot (counts.set (n t) (slot counts (n t) + 1)) x =
      past (Finset.range N) (advance n t) x := by
    intro x
    rw [slot_set hlong, past_advance hmem]
    split
    · next hx => rw [hx, hslot]
    · exact hslot x
  have hprogress : c.workerProgress.set t (n t + 1) = (List.range N).map (advance n t) := by
    rw [h.progress]
    refine List.ext_getElem? fun j => ?_
    rw [List.getElem?_set, List.getElem?_map, List.getElem?_map]
    by_cases hj : t = j
    · subst hj
      simp [ht]
    · rw [if_neg hj]
      by_cases hjN : j < N
      · simp [hjN, advance_of_ne n (Ne.symm hj)]
      · simp [hjN]
  -- the test says whether everybody is past the clock
  have hlast : c.lastAtMinClock (n t) (counts.set (n t) (slot counts (n t) + 1)) =
      some (decide (past (Finset.range N) (advance n t) c.minClock = N)) := by
    unfold lastAtMinClock
    split
    · next heq =>
        rw [getElem?_of_lt (by rw [List.length_set, ← heq]; exact hlong), Option.map_some, hnew,
          h.workers]
        rfl
    · next hne =>
        have hcard : past (Finset.range N) (advance n t) c.minClock ≠ N := by
          have hslow := h.slowest.advance_of_lt hmem
            (lt_of_le_of_ne (h.slowest.le t hmem) (Ne.symm hne))
          simpa using hslow.past_ne_card
        rw [decide_eq_false hcard]
  have hafter : c.afterPush t = some ({ c with
      workerProgress := (List.range N).map (advance n t)
      clockCount := counts.set (n t) (slot counts (n t) + 1)
      minClock := if past (Finset.range N) (advance n t) c.minClock = N
        then c.minClock + 1 else c.minClock },
      decide (past (Finset.range N) (advance n t) c.minClock = N)) := by
    unfold SSPController.afterPush
    simp only [if_neg (not_lt.mpr hlt.le), hget, Option.bind_eq_bind, Option.bind_some, hcounts,
      getElem?_of_lt hlong, hlast, hprogress, decide_eq_true_eq]
  refine ⟨_, _, hafter, ⟨h.workers, rfl, hnew, ?_⟩, rfl, ?_, ?_⟩
  · simp only
    split
    · next hcard => exact (h.slowest.advance_of_past hmem (by simpa using hcard)).1
    · next hcard => exact h.slowest.advance_of_not_past (by simpa using hcard)
  · simp only
    split <;> omega
  · intro hfalse
    exact if_neg (of_decide_eq_false hfalse)

end SSPController

/-! ## The invariant -/

/-- What has to hold when `Before…` returns: every thread has finished at least `s` pushes less
than the caller. -/
def WithinStaleness (N s : ℕ) (before : List ControlEvent) : ControlEvent → Prop
  | .entered t _ => ∀ v < N, finished before .push t ≤ finished before .push v + s
  | .left _ _ => True

/-- The invariant. -/
structure SSPControlInv (N s : ℕ) (history : List ControlEvent)
    (sys : ControlSystem SSPController ℤ) : Prop where
  counts : sys.state.Counts N (finished history .push)
  staleness : sys.state.staleness = s
  waiting : ∀ t < N, ∀ op r, (sys.threads t).waiting = some (op, r) →
    r = (finished history .push t : ℤ) - s
  inside : ∀ t < N, ∀ op, sys.threads t = .inside op →
    finished history .push t ≤ sys.state.minClock + s
  bounded : ∀ t < N, finished history .push t ≤ sys.state.minClock + s + 1
  attentive : Attentive sspController sys
  entered : Throughout (WithinStaleness N s) history

section Invariant

variable {N s : ℕ} {history o : List ControlEvent} {sys sys' : ControlSystem SSPController ℤ}

theorem sspControlInv_init (hN : 0 < N) (s : ℕ) :
    SSPControlInv N s [] (.init (.init s N)) where
  counts := SSPController.counts_init hN s
  staleness := rfl
  waiting := nofun
  inside := nofun
  bounded _ _ := Nat.zero_le _
  attentive := attentive_init _ _
  entered := throughout_nil _

/-- Before a thread goes in, the clock has reached what it waits for. -/
theorem le_of_passes {c : SSPController} {n : ℕ}
    (hpass : sspController.passes c ((n : ℤ) - s) = true) : n ≤ c.minClock + s := by
  have := of_decide_eq_true hpass
  omega

/-- Then the thread is within the staleness of everybody. -/
theorem SSPControlInv.within (h : SSPControlInv N s history sys) {t : ℕ} (op : ControlOp)
    (hle : finished history .push t ≤ sys.state.minClock + s) :
    WithinStaleness N s history (.entered t op) := by
  intro v hv
  have := h.counts.slowest.le v (Finset.mem_range.mpr hv)
  omega

/-- A step that shows no push and changes no data. -/
theorem SSPControlInv.keep (h : SSPControlInv N s history sys) {history' : List ControlEvent} {t : ℕ}
    (hstate : sys'.state = sys.state)
    (hfinished : finished history' .push = finished history .push)
    (hothers : ∀ v ≠ t, (sys'.threads v).waiting = (sys.threads v).waiting ∧
      ∀ op, sys'.threads v = .inside op ↔ sys.threads v = .inside op)
    (hwaiting : ∀ op r, (sys'.threads t).waiting = some (op, r) →
      r = (finished history .push t : ℤ) - s)
    (hinside : ∀ op, sys'.threads t = .inside op →
      finished history .push t ≤ sys.state.minClock + s)
    (hattentive : Attentive sspController sys')
    (hentered : Throughout (WithinStaleness N s) history') : SSPControlInv N s history' sys' := by
  refine ⟨?_, ?_, fun v hv op r hr => ?_, fun v hv op hop => ?_, fun v hv => ?_, hattentive, hentered⟩
  · rw [hstate, hfinished]
    exact h.counts
  · rw [hstate]
    exact h.staleness
  · rw [hfinished]
    by_cases hvt : v = t
    · subst hvt
      exact hwaiting op r hr
    · rw [(hothers v hvt).1] at hr
      exact h.waiting v hv op r hr
  · rw [hfinished, hstate]
    by_cases hvt : v = t
    · subst hvt
      exact hinside op hop
    · exact h.inside v hv op (((hothers v hvt).2 op).mp hop)
  · rw [hfinished, hstate]
    exact h.bounded v hv

/-- A thread finishes a push. -/
theorem SSPControlInv.pushed (h : SSPControlInv N s history sys) {t : ℕ} (ht : t < N)
    {last : Bool} (hinside : sys.threads t = .inside .push)
    (hafter : sys.state.afterPush t = some (sys'.state, last))
    (hothers : ∀ v ≠ t, (sys'.threads v).waiting = (sys.threads v).waiting ∧
      ∀ op, sys'.threads v = .inside op ↔ sys.threads v = .inside op)
    (hself : sys'.threads t = .outside) (hattentive : Attentive sspController sys') :
    SSPControlInv N s (history ++ [.left t .push]) sys' := by
  obtain ⟨c', last', heq, hcounts, hstale, hmono, -⟩ := h.counts.afterPush ht
  obtain ⟨rfl, rfl⟩ := Prod.mk.inj (Option.some.inj (heq.symm.trans hafter))
  have hfinished : finished (history ++ [.left t .push]) .push =
      advance (finished history .push) t := by
    rw [finished_left, if_pos rfl]
  refine ⟨hfinished ▸ hcounts, hstale.trans h.staleness, fun v hv op r hr => ?_,
    fun v hv op hop => ?_, fun v hv => ?_, hattentive, throughout_snoc.mpr ⟨h.entered, trivial⟩⟩
  · by_cases hvt : v = t
    · subst hvt
      rw [hself] at hr
      cases hr
    · rw [hfinished, advance_of_ne _ hvt]
      rw [(hothers v hvt).1] at hr
      exact h.waiting v hv op r hr
  · by_cases hvt : v = t
    · subst hvt
      rw [hself] at hop
      cases hop
    · rw [hfinished, advance_of_ne _ hvt]
      have := h.inside v hv op (((hothers v hvt).2 op).mp hop)
      omega
  · by_cases hvt : v = t
    · subst hvt
      rw [hfinished, advance_self]
      have := h.inside v hv .push hinside
      omega
    · rw [hfinished, advance_of_ne _ hvt]
      have := h.bounded v hv
      omega

/-- No wakeup is lost. -/
theorem SSPControlInv.attentive_step (h : SSPControlInv N s history sys) {i : ControlInput}
    (hi : i.thread < N) (hstep : controlStep sspController sys i = some (sys', o)) :
    Attentive sspController sys' := by
  refine ML.attentive_step h.attentive (fun op state' r hbefore x => ?_)
    (fun op state' hafter x hx => ?_) hstep
  · have heq := h.counts.expectedMinLock_eq hi
    obtain ⟨rfl, -⟩ := Prod.mk.inj (Option.some.inj (heq.symm.trans hbefore))
    rfl
  · cases op with
    | pull =>
        obtain ⟨rfl, -⟩ := Prod.mk.inj (Option.some.inj hafter)
        exact hx
    | push =>
        obtain ⟨c', last, heq, -, -, -, hsame⟩ := h.counts.afterPush hi
        obtain ⟨rfl, rfl⟩ := Prod.mk.inj (Option.some.inj (heq.symm.trans hafter))
        simp only [sspController, hsame rfl] at hx ⊢
        exact hx

/-- **A step keeps the invariant.** -/
theorem sspControlInv_step (h : SSPControlInv N s history sys) {i : ControlInput}
    (hi : i.thread < N) (hstep : controlStep sspController sys i = some (sys', o)) :
    SSPControlInv N s (history ++ o) sys' := by
  have hothers : ∀ v ≠ i.thread, _ := fun v hv => controlStep_others hstep hv
  have hattentive := h.attentive_step hi hstep
  obtain ⟨phase', notify, hmove, hthreads⟩ := controlStep_move hstep
  have hself : sys'.threads i.thread = phase' := by rw [hthreads, Function.update_self]
  -- what the thread waited for, or was let in for
  have hwaiting := h.waiting _ hi
  have hinside := h.inside _ hi
  generalize hphase : sys.threads i.thread = phase at hmove hwaiting hinside
  generalize hstate : sys'.state = state' at hmove
  cases hmove with
  | @enter t op _ r hi' hbefore hpass =>
      subst hi'
      have heq := h.counts.expectedMinLock_eq hi
      rw [h.staleness] at heq
      obtain ⟨rfl, rfl⟩ := Prod.mk.inj (Option.some.inj (heq.symm.trans hbefore))
      have hle := le_of_passes hpass
      refine h.keep hstate (finished_entered ..) hothers ?_ (fun _ _ => hle) hattentive
        (throughout_snoc.mpr ⟨h.entered, h.within op hle⟩)
      rw [hself]
      nofun
  | @sleep t op _ r hi' hbefore hwait =>
      subst hi'
      have heq := h.counts.expectedMinLock_eq hi
      rw [h.staleness] at heq
      obtain ⟨rfl, rfl⟩ := Prod.mk.inj (Option.some.inj (heq.symm.trans hbefore))
      rw [List.append_nil]
      refine h.keep hstate rfl hothers ?_ ?_ hattentive h.entered
      · rw [hself]
        intro op' r' hr
        exact (Prod.mk.inj (Option.some.inj hr)).2.symm
      · rw [hself]
        nofun
  | @retry op r hpass =>
      obtain rfl := hwaiting op r rfl
      have hle := le_of_passes hpass
      refine h.keep hstate (finished_entered ..) hothers ?_ (fun _ _ => hle) hattentive
        (throughout_snoc.mpr ⟨h.entered, h.within op hle⟩)
      rw [hself]
      nofun
  | @again op r hwait =>
      rw [List.append_nil]
      refine h.keep hstate rfl hothers ?_ ?_ hattentive h.entered
      · rw [hself]
        exact hwaiting
      · rw [hself]
        nofun
  | @wake op r =>
      rw [List.append_nil]
      refine h.keep hstate rfl hothers ?_ ?_ hattentive h.entered
      · rw [hself]
        exact hwaiting
      · rw [hself]
        nofun
  | @leave op _ notify hafter =>
      cases op with
      | pull =>
          obtain ⟨rfl, -⟩ := Prod.mk.inj (Option.some.inj hafter)
          have hfinished : finished (history ++ [.left i.thread .pull]) .push =
              finished history .push := by
            rw [finished_left, if_neg nofun]
          refine h.keep hstate hfinished hothers ?_ ?_ hattentive
            (throughout_snoc.mpr ⟨h.entered, trivial⟩)
          · rw [hself]
            nofun
          · rw [hself]
            nofun
      | push =>
          subst hstate
          exact h.pushed hi hphase hafter hothers hself hattentive

/-- **`SSPConsistencyController`.**  In every run of `N` threads, whatever they call and in
whatever order their steps are taken: `min_clock_` is the least progress of a thread, no thread is
more than `s + 1` ahead of it, every thread has finished all its counted pushes, who is let in is
within the staleness of everybody, no vector is accessed out of bounds, and the threads do not all
sleep. -/
theorem sspController_correct (hN : 0 < N) (s : ℕ) {is : List ControlInput}
    {sys : ControlSystem SSPController ℤ} {out : List ControlEvent}
    (hthreads : ∀ i ∈ is, i.thread < N)
    (hrun : run (controlStep sspController) (.init (.init s N)) is = some (sys, out)) :
    sys.state.workerProgress = (List.range N).map (finished out .push) ∧
    sys.state.workerProgress.min? = some sys.state.minClock ∧
    (∀ p ∈ sys.state.workerProgress, p ≤ sys.state.minClock + s + 1) ∧
    Throughout (WithinStaleness N s) out ∧
    (∀ t < N, (sys.state.expectedMinLock t).isSome ∧ (sys.state.afterPush t).isSome) ∧
    ¬ ∀ t < N, (sys.threads t).sleeps = true := by
  have hinv := run_along (I := SSPControlInv N s) ?_ (sspControlInv_init hN s)
    (along_of_forall hthreads [] _) hrun
  · rw [List.nil_append] at hinv
    refine ⟨hinv.counts.progress, hinv.counts.min_eq, ?_, hinv.entered, fun t ht => ?_, fun hall => ?_⟩
    · rw [hinv.counts.progress]
      intro p hp
      obtain ⟨t, ht, rfl⟩ := List.mem_map.mp hp
      exact hinv.bounded t (List.mem_range.mp ht)
    · obtain ⟨c', last, hafter, -⟩ := hinv.counts.afterPush ht
      rw [hinv.counts.expectedMinLock_eq ht, hafter]
      exact ⟨rfl, rfl⟩
    · -- the slowest thread has nothing to wait for
      obtain ⟨t, ht, hslow⟩ := hinv.counts.slowest.attained
      have htN := Finset.mem_range.mp ht
      have hsleeps := hall t htN
      cases hphase : sys.threads t with
      | asleep op r =>
          have hr := hinv.waiting t htN op r (by rw [hphase]; rfl)
          have hfail := of_decide_eq_false (hinv.attentive t op r hphase)
          omega
      | _ =>
          rw [hphase] at hsleeps
          cases hsleeps
  · exact fun hI hi hstep => sspControlInv_step hI hi hstep

end Invariant

/-- Two threads with staleness 0: the first one pushes, and its next pull waits for the second. -/
def sspWait : List ControlInput :=
  [.before 0 .push, .after 0, .before 0 .pull, .before 1 .push, .after 1, .check 0, .after 0]

theorem sspController_correct_sspWait : ∃ sys out,
    run (controlStep sspController) (.init (.init 0 2)) sspWait = some (sys, out) ∧
    out = [.entered 0 .push, .left 0 .push, .entered 1 .push, .left 1 .push, .entered 0 .pull,
      .left 0 .pull] ∧
    sys.state.workerProgress.min? = some sys.state.minClock := by
  have hrun : run (controlStep sspController) (.init (.init 0 2)) sspWait = some (_,
      [.entered 0 .push, .left 0 .push, .entered 1 .push, .left 1 .push, .entered 0 .pull,
        .left 0 .pull]) := rfl
  exact ⟨_, _, hrun, rfl, (sspController_correct (by decide) 0 (by decide) hrun).2.1⟩

end FlexPS.ML
