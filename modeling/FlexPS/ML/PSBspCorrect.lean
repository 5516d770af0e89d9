import FlexPS.ML.PSBspPulls
import FlexPS.ML.PSBspPushes

/-!
# The process cache for BSP is right

In every round one thread pulls the keys of all threads and every other thread pulls nothing; what
`Pull` returns is what the servers have answered to that pull.  The leader pushes the sums of what
all threads have pushed in the round, and every other thread pushes nothing.

## Main definitions

* `BspRound` — what is sent and returned in a round, and when the counters are reset.
* `BspWaits` — who waits does so for the round that he is in.
* `bspModel_aggregates` — both hold in every run.
-/

namespace FlexPS.ML

open KVStore Lib

variable {Val : Type}

/-- The list of a round is full when all threads are in it. -/
theorem OncePerRound.length_eq_iff {T r : ℕ} {α : Type} {threads : ℕ → List (ℕ × α)}
    {count : ℕ → ℕ} (h : OncePerRound T (fun r => (threads r).map Prod.fst) count) :
    (threads r).length = T ↔ ∀ t < T, r < count t := by
  constructor
  · intro hlen t ht
    have hsub : ((threads r).map Prod.fst).Subperm (List.range T) := by
      refine List.subperm_of_subset (h r).1 fun v hv => ?_
      exact List.mem_range.mpr (((h r).2 v).mp hv).1
    have hperm := hsub.perm_of_length_le (by rw [List.length_range, List.length_map, hlen])
    exact (((h r).2 t).mp (hperm.mem_iff.mpr (List.mem_range.mpr ht))).2
  · intro hall
    have hlen := (h.perm hall).length_eq
    rwa [List.length_range, List.length_map] at hlen

section Correct

variable [AddCommMonoid Val] [DecidableEq Val]

/-- What happens in the round `r` of a history that ends in `s`. -/
structure BspRound (cfg : BspConfig) (out : List (BspEvent Val)) (s : BspSystem Val) (r : ℕ) :
    Prop where
  /-- Every thread sends one pull at most. -/
  pulls : ((pullsSent out r).map Prod.fst).Nodup ∧ ∀ x ∈ pullsSent out r, x.1 < cfg.numThreads
  /-- All pulls but the last one are empty, -/
  early : (pullsSent out r).length ≠ cfg.numThreads → ∀ x ∈ pullsSent out r, x.2 = []
  /-- and that one has the keys of all threads. -/
  onePull : (pullsSent out r).length = cfg.numThreads → OnePull cfg out r
  /-- `Pull` returns what was answered in the round. -/
  returned : ∀ t keys vals, .returned t r keys vals ∈ out →
    (pullsSent out r).length = cfg.numThreads ∧ RightAnswer cfg out t r keys vals
  /-- Every thread sends one push at most, -/
  pushes : ((pushesSent out r).map Prod.fst).Nodup ∧ ∀ x ∈ pushesSent out r, x.1 < cfg.numThreads
  /-- after all threads have pushed; the leader sends the sums, the others nothing. -/
  sums : ∀ x ∈ pushesSent out r, ((pushesIn out r).map Prod.fst).Perm (List.range cfg.numThreads) ∧
    x.2 = sumsSent cfg out x.1 r
  /-- The counters are reset once, when the last thread leaves. -/
  pullReset : pullResets out r = if ∀ t < cfg.numThreads, r < s.count .leavePull t then 1 else 0
  pushReset : pushResets out r = if ∀ t < cfg.numThreads, r < s.count .leavePush t then 1 else 0

/-- A thread that waits does so for counters that have not been reset since, and that are full as
soon as all threads have arrived. -/
structure BspWaits (cfg : BspConfig) (out : List (BspEvent Val)) (s : BspSystem Val) (t : ℕ) :
    Prop where
  pull : ∀ keys awake, (s.threads t).phase = .awaiting keys awake →
    pullResets out ((s.threads t).pullCount - 1) = 0 ∧
      (s.model.pullBarrier.num = cfg.numThreads ↔
        ∀ v < cfg.numThreads, (s.threads t).pullCount - 1 < s.count .arrivePull v)
  push : ∀ awake, (s.threads t).phase = .gathering awake →
    pushResets out ((s.threads t).pushCount - 1) = 0 ∧
      (s.model.pushBarrier.num = cfg.numThreads ↔
        ∀ v < cfg.numThreads, (s.threads t).pushCount - 1 < s.count .arrivePush v)

/-- All invariants of a `PSBspModel`. -/
structure BspInv (cfg : BspConfig) (gP gQ : ℕ) (out : List (BspEvent Val)) (s : BspSystem Val) :
    Prop where
  rounds : BspRounds cfg gP gQ s
  history : BspHistory cfg gP gQ out s
  keys : BspKeys cfg gP out s
  sums : BspSums cfg out s

variable {cfg : BspConfig} {gP gQ : ℕ} {s s' : BspSystem Val} {out o : List (BspEvent Val)}

theorem bspInv_init (hl : cfg.leader < cfg.numThreads) :
    BspInv cfg 0 0 [] (.init : BspSystem Val) where
  rounds := bspRounds_init (Nat.zero_lt_of_lt hl)
  history := bspHistory_init
  keys := bspKeys_init (Nat.zero_lt_of_lt hl)
  sums := bspSums_init

/-- Only `Pull` shows the keys that are asked for. -/
theorem bspStep_sorted {i : BspInput Val} (hvalid : i.Valid cfg)
    (hstep : bspStep cfg s i = some (s', o)) {t r : ℕ} {keys : List ℕ}
    (hmem : .asked t r keys ∈ o) : keys.Pairwise (· ≤ ·) := by
  cases i with
  | pull t' keys' =>
      simp only [bspStep] at hstep
      split at hstep
      · split at hstep
        · obtain ⟨rfl, rfl⟩ := Prod.mk.inj (Option.some.inj hstep)
          obtain ⟨-, -, rfl⟩ := BspEvent.asked.inj (List.mem_singleton.mp hmem)
          exact hvalid.2
        · cases hstep
      · cases hstep
  | push t' keys' vals =>
      simp only [bspStep] at hstep
      split at hstep
      · split at hstep
        · obtain ⟨pairs, -, h⟩ := Option.bind_eq_some_iff.mp hstep
          obtain ⟨rfl, rfl⟩ := Prod.mk.inj (Option.some.inj h)
          cases List.mem_singleton.mp hmem
        · cases hstep
      · cases hstep
  | proceed t' =>
      obtain ⟨⟨tag, hmove⟩, -⟩ := bspStep_stepOf hstep
      obtain ⟨phase, p, q, hw⟩ := s.exists_thread t'
      simp only [bspStep, bspProceed, hw] at hstep
      simp only [BspInput.thread, hw] at hmove
      generalize s'.threads t' = w' at hmove
      generalize s'.model = m' at hmove
      generalize s'.pullMutex = mutex' at hmove
      cases hmove with
      | ask => cases hstep
      | leavePull =>
          rcases List.mem_cons.mp hmem with hmem | hmem
          · cases hmem
          · split at hmem
            · cases List.mem_singleton.mp hmem
            · cases hmem
      | leavePush =>
          split at hmem
          · cases List.mem_singleton.mp hmem
          · cases hmem
      | _ => simp at hmem
  | wake t' =>
      simp only [bspStep] at hstep
      split at hstep
      · obtain ⟨rfl, rfl⟩ := Prod.mk.inj (Option.some.inj hstep)
        cases hmem
      · obtain ⟨rfl, rfl⟩ := Prod.mk.inj (Option.some.inj hstep)
        cases hmem
      · cases hstep
  | answer t' vals =>
      simp only [bspStep] at hstep
      split at hstep
      · split at hstep
        · obtain ⟨rfl, rfl⟩ := Prod.mk.inj (Option.some.inj hstep)
          cases List.mem_singleton.mp hmem
        · cases hstep
      · cases hstep

/-- **A step keeps the invariants.** -/
theorem bspInv_step (h : BspInv cfg gP gQ out s) (hl : cfg.leader < cfg.numThreads)
    {i : BspInput Val} (hvalid : i.Valid cfg) (hstep : bspStep cfg s i = some (s', o)) :
    ∃ gP' gQ', BspInv cfg gP' gQ' (out ++ o) s' := by
  obtain ⟨⟨tag, hmove⟩, hothers⟩ := bspStep_stepOf hstep
  have ht := hvalid.1
  refine ⟨_, _, bspRounds_step h.rounds ht hmove hothers,
    bspHistory_step h.history h.rounds ht hmove hothers,
    bspKeys_step h.keys h.rounds h.history ht hmove hothers fun r keys hmem => ?_,
    bspSums_step h.sums h.rounds h.history hl ht hmove hothers⟩
  exact bspStep_sorted hvalid hstep hmem

omit [AddCommMonoid Val] [DecidableEq Val] in
/-- All pulls of a round have been sent when all threads have arrived. -/
theorem BspRounds.closed_iff (h : BspRounds cfg gP gQ s) (r : ℕ) :
    s.Closed cfg gP r ↔ ∀ t < cfg.numThreads, r < s.count .arrivePull t := by
  constructor
  · rintro (hr | ⟨rfl, hfull⟩) t ht
    · exact hr.trans_le ((h.pull.le_leaves t ht).trans (h.pull.leaves_le t ht))
    · rw [h.pull.full_iff.mp hfull t ht]
      exact Nat.lt_succ_self r
  · intro hall
    obtain ⟨t, ht, -⟩ := h.pull.exists_leaves
    have hmax := h.pull.arrivals_le t ht
    have hlt := hall t ht
    rcases Nat.lt_or_ge r gP with hr | hr
    · exact .inl hr
    · have hr : r = gP := by omega
      subst hr
      refine .inr ⟨rfl, h.pull.full_iff.mpr fun v hv => ?_⟩
      have := h.pull.arrivals_le v hv
      have := hall v hv
      omega

/-- A round is over when everybody has left its barrier. -/
theorem over_iff {T g r : ℕ} {arrivals leaves : ℕ → ℕ} {b : Barrier}
    (h : b.InGen T g arrivals leaves) : r < g ↔ ∀ t < T, r < leaves t := by
  constructor
  · intro hr t ht
    exact hr.trans_le (h.le_leaves t ht)
  · intro hall
    obtain ⟨t, ht, hlast⟩ := h.exists_leaves
    rw [← hlast]
    exact hall t ht

/-- The invariants give what happens in a round. -/
theorem BspInv.round (h : BspInv cfg gP gQ out s) (r : ℕ) : BspRound cfg out s r := by
  have hclosed := (h.rounds.closed_iff r).trans (h.history.pulls.length_eq_iff (r := r)).symm
  refine ⟨⟨(h.history.pulls r).1, fun x hx => ?_⟩, fun hlen => ?_, fun hlen => ?_,
    fun t keys vals hmem => ?_, ⟨(h.history.sends r).1, fun x hx => ?_⟩, fun x hx => ?_, ?_, ?_⟩
  · exact (((h.history.pulls r).2 x.1).mp (List.mem_map_of_mem hx)).1
  · have hopen : ¬ s.Closed cfg gP r := fun hr => hlen (hclosed.mp hr)
    rcases Nat.lt_trichotomy r gP with hr | rfl | hr
    · exact absurd (.inl hr) hopen
    · exact h.keys.empty fun hfull => hopen (.inr ⟨rfl, hfull⟩)
    · have hnone : pullsSent out r = [] := by
        refine h.history.pulls.eq_nil fun t ht => ?_
        exact (h.rounds.pull.arrivals_le t ht).trans hr
      rw [hnone]
      exact nofun
  · exact h.keys.sent r (hclosed.mpr hlen)
  · obtain ⟨hr, hright⟩ := h.keys.returned t r keys vals hmem
    exact ⟨hclosed.mp hr, hright⟩
  · exact (((h.history.sends r).2 x.1).mp (List.mem_map_of_mem hx)).1
  · obtain ⟨hall, hsum⟩ := h.sums.sent r x hx
    exact ⟨h.history.pushes.perm hall, hsum⟩
  · rw [h.history.pullResets]
    exact if_congr (over_iff h.rounds.pull) rfl rfl
  · rw [h.history.pushResets]
    exact if_congr (over_iff h.rounds.push) rfl rfl

/-- The invariants give what a thread waits for. -/
theorem BspInv.waits (h : BspInv cfg gP gQ out s) {t : ℕ} (ht : t < cfg.numThreads) :
    BspWaits cfg out s t := by
  have hshape := h.rounds.shape t ht
  have hgP := h.rounds.gP_eq ht
  have hgQ := h.rounds.gQ_eq ht
  rw [BspSystem.count, BspSystem.count] at hgP hgQ
  refine ⟨fun keys awake hphase => ?_, fun awake hphase => ?_⟩
  · obtain ⟨phase, p, q, hw⟩ := s.exists_thread t
    rw [hw] at hshape hgP hphase ⊢
    subst hphase
    have hp : p = q + 1 := hshape
    have hround : gP = p - 1 := hgP (by simp [BspThread.count, BspPhase.ahead]; omega)
    rw [h.history.pullResets, ← hround, if_neg (lt_irrefl _), h.rounds.pull.full_iff]
    refine ⟨rfl, fun hall v hv => ?_, fun hall v hv => ?_⟩
    · rw [hall v hv]
      exact Nat.lt_succ_self gP
    · exact le_antisymm (h.rounds.pull.arrivals_le v hv) (hall v hv)
  · obtain ⟨phase, p, q, hw⟩ := s.exists_thread t
    rw [hw] at hshape hgQ hphase ⊢
    subst hphase
    have hp : p = q ∧ 0 < q := hshape
    have hround : gQ = q - 1 := hgQ (by simp [BspThread.count, BspPhase.ahead]; omega)
    rw [h.history.pushResets, ← hround, if_neg (lt_irrefl _), h.rounds.push.full_iff]
    refine ⟨rfl, fun hall v hv => ?_, fun hall v hv => ?_⟩
    · rw [hall v hv]
      exact Nat.lt_succ_self gQ
    · exact le_antisymm (h.rounds.push.arrivals_le v hv) (hall v hv)

/-- The assertion in the loop over the keys holds. -/
theorem BspInv.reads (h : BspInv cfg gP gQ out s) {t k i : ℕ} (ht : t < cfg.numThreads)
    {keys todo : List ℕ} {vals : List Val}
    (hphase : (s.threads t).phase = .reading keys (k :: todo) i vals) :
    (bspStep cfg s (.proceed t)).isSome = true := by
  have hreading := h.keys.readers t ht _ _ _ _ hphase
  have hfull := h.rounds.metPull t ht (by rw [hphase]; trivial)
  have hlen := (h.keys.answer hfull hreading.free).2
  have hi : i < s.model.pullKeys.length := by
    by_contra hge
    have hmem := hreading.ahead k (List.mem_cons_self ..)
    rw [List.drop_eq_nil_of_le (not_lt.mp hge)] at hmem
    cases hmem
  have hget : s.model.pullKeys[i]? = some s.model.pullKeys[i] := List.getElem?_eq_getElem hi
  have hi' : i < s.model.pullVals.length := hlen ▸ hi
  have hval : s.model.pullVals[i]? = some s.model.pullVals[i] := List.getElem?_eq_getElem hi'
  simp only [bspStep, bspProceed, hphase, hget]
  split
  · rfl
  · rw [hval]
    rfl

/-- **`PSBspModel`.**  In every run of threads that pull and push in turns, in whatever order their
steps are taken: every round sends and returns what it should, a thread waits for the round that it
is in, and the loop over the keys finds all of them. -/
theorem bspModel_aggregates (hl : cfg.leader < cfg.numThreads) {is : List (BspInput Val)}
    (hvalid : ∀ i ∈ is, i.Valid cfg) (hrun : run (bspStep cfg) .init is = some (s, out)) :
    (∀ r, BspRound cfg out s r) ∧ (∀ t < cfg.numThreads, BspWaits cfg out s t) ∧
    ∀ t < cfg.numThreads, ∀ keys k todo i vals,
      (s.threads t).phase = .reading keys (k :: todo) i vals →
        (bspStep cfg s (.proceed t)).isSome = true := by
  have hinv := run_along (I := fun out s => ∃ gP gQ, BspInv cfg gP gQ out s) ?_
    ⟨0, 0, bspInv_init hl⟩ (along_of_forall hvalid [] .init) hrun
  · obtain ⟨gP, gQ, hinv⟩ := hinv
    rw [List.nil_append] at hinv
    exact ⟨hinv.round, fun t ht => hinv.waits ht,
      fun t ht keys k todo i vals hphase => hinv.reads ht hphase⟩
  · rintro out s i s' o ⟨gP, gQ, hI⟩ hi hstep
    exact bspInv_step hI hl hi hstep

end Correct

/-- One round of two threads; what they push to the first parameter adds up to zero. -/
def bspOneRound : List (BspInput ℤ) :=
  [.pull 0 [0], .pull 1 [0, 1], .proceed 0, .proceed 1, .answer 1 [5, 6], .proceed 0, .proceed 0,
    .proceed 0, .proceed 1, .proceed 1, .proceed 1, .proceed 1, .push 0 [0] [3],
    .push 1 [0, 1] [-3, 2], .proceed 0, .proceed 1, .proceed 0, .proceed 0, .proceed 1, .proceed 1,
    .proceed 0, .proceed 0, .proceed 0]

theorem bspModel_aggregates_bspOneRound : ∃ s out,
    run (bspStep ⟨2, 0, 2⟩) .init bspOneRound = some (s, out) ∧
    out = [.asked 0 0 [0], .asked 1 0 [0, 1], .sentPull 0 0 [], .sentPull 1 0 [0, 1],
      .answered 0 [0, 1] [5, 6], .returned 0 0 [0] [5], .returned 1 0 [0, 1] [5, 6], .pullReset 0,
      .pushed 0 0 [(0, 3)], .pushed 1 0 [(0, -3), (1, 2)], .pushReset 0, .sentPush 1 0 [],
      .sentPush 0 0 [(1, 2)]] ∧ ∀ r, BspRound ⟨2, 0, 2⟩ out s r := by
  have hrun : run (bspStep ⟨2, 0, 2⟩) .init bspOneRound = some (_,
      [.asked 0 0 [0], .asked 1 0 [0, 1], .sentPull 0 0 [], .sentPull 1 0 [0, 1],
        .answered 0 [0, 1] [5, 6], .returned 0 0 [0] [5], .returned 1 0 [0, 1] [5, 6], .pullReset 0,
        .pushed 0 0 [(0, 3)], .pushed 1 0 [(0, -3), (1, 2)], .pushReset 0, .sentPush 1 0 [],
        .sentPush 0 0 [(1, 2)]]) := rfl
  exact ⟨_, _, hrun, rfl, (bspModel_aggregates (by decide) (by decide) hrun).1⟩

end FlexPS.ML
