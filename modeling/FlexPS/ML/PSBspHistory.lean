import FlexPS.ML.PSBspRounds

/-!
# The history of a BSP process cache

Every thread calls `Pull` and `Push` once in a round, and sends one pull and one push to the
servers; the counters of both barriers are reset at the end of every round.

## Main definitions

* `asksIn`, `pullsSent`, `answersIn`, `pushesIn`, `pushesSent` — the history of one round.
* `OncePerRound` — the threads of a list of every round.
* `BspHistory`, `bspHistory_step` — the invariant of the history.
-/

namespace FlexPS.ML

open KVStore Lib

variable {Val : Type}

/-! ## The history of a round -/

/-- The calls of `Pull` of a round. -/
def asksIn (out : List (BspEvent Val)) (r : ℕ) : List (ℕ × List ℕ) :=
  out.filterMap fun
    | .asked t r' keys => if r' = r then some (t, keys) else none
    | _ => none

/-- The pulls that were sent to the servers in a round. -/
def pullsSent (out : List (BspEvent Val)) (r : ℕ) : List (ℕ × List ℕ) :=
  out.filterMap fun
    | .sentPull t r' keys => if r' = r then some (t, keys) else none
    | _ => none

/-- What the servers answered in a round. -/
def answersIn (out : List (BspEvent Val)) (r : ℕ) : List (List ℕ × List Val) :=
  out.filterMap fun
    | .answered r' keys vals => if r' = r then some (keys, vals) else none
    | _ => none

/-- The calls of `Push` of a round. -/
def pushesIn (out : List (BspEvent Val)) (r : ℕ) : List (ℕ × List (ℕ × Val)) :=
  out.filterMap fun
    | .pushed t r' pairs => if r' = r then some (t, pairs) else none
    | _ => none

/-- The pushes that were sent to the servers in a round. -/
def pushesSent (out : List (BspEvent Val)) (r : ℕ) : List (ℕ × List (ℕ × Val)) :=
  out.filterMap fun
    | .sentPush t r' pairs => if r' = r then some (t, pairs) else none
    | _ => none

/-- How often the counters of the pull barrier were reset at the end of a round. -/
def pullResets (out : List (BspEvent Val)) (r : ℕ) : ℕ :=
  out.countP fun
    | .pullReset r' => r' == r
    | _ => false

/-- How often the counters of the push barrier were reset at the end of a round. -/
def pushResets (out : List (BspEvent Val)) (r : ℕ) : ℕ :=
  out.countP fun
    | .pushReset r' => r' == r
    | _ => false

/-- The keys that some thread pulls in a round, in order. -/
def roundKeys (cfg : BspConfig) (out : List (BspEvent Val)) (r : ℕ) : List ℕ :=
  (List.range cfg.numParams).filter fun k => k ∈ (asksIn out r).flatMap Prod.snd

/-- What all threads push to a parameter in a round. -/
def roundSum [AddCommMonoid Val] (out : List (BspEvent Val)) (r i : ℕ) : Val :=
  written ((pushesIn out r).flatMap Prod.snd) i

/-- The sums of the first parameters that are not zero. -/
def roundSums [AddCommMonoid Val] [DecidableEq Val] (n : ℕ) (out : List (BspEvent Val)) (r : ℕ) :
    List (ℕ × Val) :=
  ((List.range n).filter fun i => roundSum out r i ≠ 0).map fun i => (i, roundSum out r i)

section Append

variable (out o : List (BspEvent Val)) (r : ℕ)

@[simp] theorem asksIn_append : asksIn (out ++ o) r = asksIn out r ++ asksIn o r :=
  List.filterMap_append

@[simp] theorem pullsSent_append : pullsSent (out ++ o) r = pullsSent out r ++ pullsSent o r :=
  List.filterMap_append

@[simp] theorem answersIn_append : answersIn (out ++ o) r = answersIn out r ++ answersIn o r :=
  List.filterMap_append

@[simp] theorem pushesIn_append : pushesIn (out ++ o) r = pushesIn out r ++ pushesIn o r :=
  List.filterMap_append

@[simp] theorem pushesSent_append :
    pushesSent (out ++ o) r = pushesSent out r ++ pushesSent o r :=
  List.filterMap_append

@[simp] theorem pullResets_append : pullResets (out ++ o) r = pullResets out r + pullResets o r :=
  List.countP_append

@[simp] theorem pushResets_append : pushResets (out ++ o) r = pushResets out r + pushResets o r :=
  List.countP_append

end Append

/-! ## Once in a round -/

/-- The threads of a round are in the list of the round once each; `count` says in how many rounds
a thread is. -/
def OncePerRound (T : ℕ) (threads : ℕ → List ℕ) (count : ℕ → ℕ) : Prop :=
  ∀ r, (threads r).Nodup ∧ ∀ t, t ∈ threads r ↔ t < T ∧ r < count t

theorem oncePerRound_nil (T : ℕ) : OncePerRound T (fun _ => []) fun _ => 0 :=
  fun _ => ⟨List.nodup_nil, by simp⟩

/-- A thread is in one more round. -/
theorem OncePerRound.snoc {T : ℕ} {threads threads' : ℕ → List ℕ} {count : ℕ → ℕ} {t : ℕ}
    (h : OncePerRound T threads count) (ht : t < T)
    (hthreads : ∀ r, threads' r = threads r ++ if r = count t then [t] else []) :
    OncePerRound T threads' (advance count t) := by
  intro r
  obtain ⟨hnodup, hmem⟩ := h r
  rw [hthreads]
  by_cases hr : r = count t
  · rw [if_pos hr]
    have hnot : t ∉ threads r := by
      rw [hmem]
      omega
    refine ⟨hnodup.append (List.nodup_singleton t) ?_, fun v => ?_⟩
    · rw [List.disjoint_singleton]
      exact hnot
    · rw [List.mem_append, List.mem_singleton, hmem]
      by_cases hv : v = t
      · subst hv
        rw [advance_self]
        simp only [or_true, true_iff]
        omega
      · rw [advance_of_ne _ hv]
        simp [hv]
  · rw [if_neg hr, List.append_nil]
    refine ⟨hnodup, fun v => ?_⟩
    rw [hmem]
    by_cases hv : v = t
    · subst hv
      rw [advance_self]
      omega
    · rw [advance_of_ne _ hv]

/-- When all threads are in a round, its list is a list of all threads. -/
theorem OncePerRound.perm {T : ℕ} {threads : ℕ → List ℕ} {count : ℕ → ℕ} {r : ℕ}
    (h : OncePerRound T threads count) (hall : ∀ t < T, r < count t) :
    (threads r).Perm (List.range T) := by
  rw [List.perm_ext_iff_of_nodup (h r).1 List.nodup_range]
  intro t
  rw [(h r).2, List.mem_range]
  exact ⟨fun ht => ht.1, fun ht => ⟨ht, hall t ht⟩⟩

/-- A round that nobody has begun has no list. -/
theorem OncePerRound.eq_nil {T r : ℕ} {α : Type} {threads : ℕ → List (ℕ × α)} {count : ℕ → ℕ}
    (h : OncePerRound T (fun r => (threads r).map Prod.fst) count)
    (hcount : ∀ t < T, count t ≤ r) : threads r = [] := by
  refine List.eq_nil_iff_forall_not_mem.mpr fun x hx => ?_
  have hmem := (h r).2 x.1
  have := hmem.mp (List.mem_map_of_mem hx)
  have := hcount x.1 this.1
  omega

section Move

variable [AddCommMonoid Val] [DecidableEq Val] {cfg : BspConfig} {t : ℕ} {m m' : PSBspModel Val}
  {mutex mutex' : Option ℕ} {w w' : BspThread Val} {tag : Option BspTag} {o : List (BspEvent Val)}

/-- What a move adds to the lists of the rounds. -/
theorem BspMove.once (h : BspMove cfg t m mutex w tag m' mutex' w' o) (hw : w.Shape) (r : ℕ) :
    (asksIn o r).map Prod.fst = (if tag = some .ask ∧ r = w.count .ask then [t] else []) ∧
    (pullsSent o r).map Prod.fst =
      (if tag = some .arrivePull ∧ r = w.count .arrivePull then [t] else []) ∧
    (pushesIn o r).map Prod.fst = (if tag = some .push ∧ r = w.count .push then [t] else []) ∧
    (pushesSent o r).map Prod.fst =
      if tag = some .send ∧ r = w.count .send then [t] else [] := by
  cases h with
  | @ask p q keys =>
      have hround : (⟨.idle, p, q⟩ : BspThread Val).count .ask = p := rfl
      by_cases hr : r = p
      · simp [asksIn, pullsSent, pushesIn, pushesSent, hround, hr]
      · simp [asksIn, pullsSent, pushesIn, pushesSent, hround, hr, Ne.symm hr]
  | @arriveLast p q keys =>
      have hround : (⟨.asked keys, p, q⟩ : BspThread Val).count .arrivePull = p - 1 := rfl
      by_cases hr : r = p - 1
      · simp [asksIn, pullsSent, pushesIn, pushesSent, hround, hr]
      · simp [asksIn, pullsSent, pushesIn, pushesSent, hround, hr, Ne.symm hr]
  | @arrive p q keys =>
      have hround : (⟨.asked keys, p, q⟩ : BspThread Val).count .arrivePull = p - 1 := rfl
      by_cases hr : r = p - 1
      · simp [asksIn, pullsSent, pushesIn, pushesSent, hround, hr]
      · simp [asksIn, pullsSent, pushesIn, pushesSent, hround, hr, Ne.symm hr]
  | @push p q pairs =>
      have hround : (⟨.idle, p, q⟩ : BspThread Val).count .push = q := rfl
      by_cases hr : r = q
      · simp [asksIn, pullsSent, pushesIn, pushesSent, hround, hr]
      · simp [asksIn, pullsSent, pushesIn, pushesSent, hround, hr, Ne.symm hr]
  | @send p q i pairs =>
      have hround : (⟨.collecting i pairs, p, q⟩ : BspThread Val).count .send = p - 1 :=
        congrArg (· - 1) hw.1.symm
      by_cases hr : r = p - 1
      · simp [asksIn, pullsSent, pushesIn, pushesSent, hround, hr]
      · simp [asksIn, pullsSent, pushesIn, pushesSent, hround, hr, Ne.symm hr]
  | @relay p q =>
      have hround : (⟨.relaying, p, q⟩ : BspThread Val).count .send = p - 1 :=
        congrArg (· - 1) hw.1.symm
      by_cases hr : r = p - 1
      · simp [asksIn, pullsSent, pushesIn, pushesSent, hround, hr]
      · simp [asksIn, pullsSent, pushesIn, pushesSent, hround, hr, Ne.symm hr]
  | leavePull => split <;> simp [asksIn, pullsSent, pushesIn, pushesSent]
  | leavePush => split <;> simp [asksIn, pullsSent, pushesIn, pushesSent]
  | _ => simp [asksIn, pullsSent, pushesIn, pushesSent]

/-- What a move adds to the resets of the rounds. -/
theorem BspMove.resets (h : BspMove cfg t m mutex w tag m' mutex' w' o) (hw : w.Shape) (r : ℕ) :
    pullResets o r = (if (tag = some .leavePull && m.pullBarrier.lastToLeave cfg.numThreads) = true ∧
      r = w.count .leavePull then 1 else 0) ∧
    pushResets o r = if (tag = some .leavePush && m.pushBarrier.lastToLeave cfg.numThreads) = true ∧
      r = w.count .leavePush then 1 else 0 := by
  cases h with
  | @leavePull p q keys i vals =>
      have hround : (⟨.reading keys [] i vals, p, q⟩ : BspThread Val).count .leavePull = p - 1 := rfl
      split
      · next hlast =>
          by_cases hr : r = p - 1
          · simp [pullResets, pushResets, hround, hlast, hr]
          · simp [pullResets, pushResets, hround, hlast, hr, Ne.symm hr]
      · next hlast => simp [pullResets, pushResets, hlast]
  | @leavePush p q =>
      have hround : (⟨.crossing, p, q⟩ : BspThread Val).count .leavePush = p - 1 :=
        congrArg (· - 1) hw.1.symm
      split
      · next hlast =>
          by_cases hr : r = p - 1
          · simp [pullResets, pushResets, hround, hlast, hr]
          · simp [pullResets, pushResets, hround, hlast, hr, Ne.symm hr]
      · next hlast => simp [pullResets, pushResets, hlast]
  | _ => simp [pullResets, pushResets]

end Move

/-! ## The invariant of the history -/

/-- Every thread asks, sends a pull, pushes and sends a push once in a round, and the counters are
reset at the end of every round. -/
structure BspHistory (cfg : BspConfig) (gP gQ : ℕ) (out : List (BspEvent Val))
    (s : BspSystem Val) : Prop where
  asks : OncePerRound cfg.numThreads (fun r => (asksIn out r).map Prod.fst) (s.count .ask)
  pulls : OncePerRound cfg.numThreads (fun r => (pullsSent out r).map Prod.fst)
    (s.count .arrivePull)
  pushes : OncePerRound cfg.numThreads (fun r => (pushesIn out r).map Prod.fst) (s.count .push)
  sends : OncePerRound cfg.numThreads (fun r => (pushesSent out r).map Prod.fst) (s.count .send)
  pullResets : ∀ r, pullResets out r = if r < gP then 1 else 0
  pushResets : ∀ r, pushResets out r = if r < gQ then 1 else 0

section Step

variable [AddCommMonoid Val] [DecidableEq Val] {cfg : BspConfig} {gP gQ t : ℕ}
  {s s' : BspSystem Val} {out o : List (BspEvent Val)} {tag : Option BspTag}

omit [DecidableEq Val] in
theorem bspHistory_init : BspHistory cfg 0 0 [] (.init : BspSystem Val) where
  asks := oncePerRound_nil _
  pulls := oncePerRound_nil _
  pushes := oncePerRound_nil _
  sends := oncePerRound_nil _
  pullResets _ := rfl
  pushResets _ := rfl

omit [AddCommMonoid Val] [DecidableEq Val] in
/-- The list of a round after a step that may add its thread. -/
theorem OncePerRound.step {T : ℕ} {threads threads' : ℕ → List ℕ} {g : BspTag}
    (h : OncePerRound T threads (s.count g)) (ht : t < T)
    (hcount : s'.count g = if tag = some g then advance (s.count g) t else s.count g)
    (hthreads : ∀ r, threads' r = threads r ++
      if tag = some g ∧ r = (s.threads t).count g then [t] else []) :
    OncePerRound T threads' (s'.count g) := by
  rw [hcount]
  by_cases htag : tag = some g
  · rw [if_pos htag]
    refine h.snoc ht fun r => ?_
    rw [hthreads]
    simp only [htag, true_and]
    rfl
  · rw [if_neg htag]
    intro r
    rw [hthreads, if_neg fun h => htag h.1, List.append_nil]
    exact h r

/-- One more reset at the end of a round. -/
theorem count_reset {g turn : ℕ} {last : Bool} (r : ℕ) (hturn : last = true → turn = g) :
    (if r < g then 1 else 0) + (if last = true ∧ r = turn then 1 else 0) =
      if r < g + last.toNat then 1 else 0 := by
  cases last with
  | false => simp
  | true =>
      obtain rfl := hturn rfl
      simp only [Bool.toNat_true, true_and]
      rcases Nat.lt_trichotomy r turn with hlt | rfl | hgt
      · rw [if_pos hlt, if_neg hlt.ne, if_pos (by omega)]
      · simp
      · rw [if_neg (by omega), if_neg hgt.ne', if_neg (by omega)]

/-- A step keeps the history in order. -/
theorem bspHistory_step (h : BspHistory cfg gP gQ out s) (hrounds : BspRounds cfg gP gQ s)
    (ht : t < cfg.numThreads)
    (hmove : BspMove cfg t s.model s.pullMutex (s.threads t) tag s'.model s'.pullMutex
      (s'.threads t) o)
    (hothers : ∀ v ≠ t, (s'.threads v).settled = (s.threads v).settled) :
    BspHistory cfg (gP + (resetsPull cfg s tag).toNat) (gQ + (resetsPush cfg s tag).toNat)
      (out ++ o) s' := by
  have hw := hrounds.shape t ht
  have hcount := BspStepOf.count_eq hothers hmove hw
  have honce := hmove.once hw
  have hresets := hmove.resets hw
  refine ⟨h.asks.step ht (hcount _) fun r => ?_, h.pulls.step ht (hcount _) fun r => ?_,
    h.pushes.step ht (hcount _) fun r => ?_, h.sends.step ht (hcount _) fun r => ?_,
    fun r => ?_, fun r => ?_⟩
  · rw [asksIn_append, List.map_append, (honce r).1]
  · rw [pullsSent_append, List.map_append, (honce r).2.1]
  · rw [pushesIn_append, List.map_append, (honce r).2.2.1]
  · rw [pushesSent_append, List.map_append, (honce r).2.2.2]
  · rw [pullResets_append, h.pullResets, (hresets r).1]
    refine count_reset r fun hlast => ?_
    rw [Bool.and_eq_true, decide_eq_true_eq] at hlast
    exact ((hrounds.pull_turn ht hmove).2 hlast.1).1
  · rw [pushResets_append, h.pushResets, (hresets r).2]
    refine count_reset r fun hlast => ?_
    rw [Bool.and_eq_true, decide_eq_true_eq] at hlast
    exact ((hrounds.push_turn ht hmove).2 hlast.1).1

end Step

end FlexPS.ML
