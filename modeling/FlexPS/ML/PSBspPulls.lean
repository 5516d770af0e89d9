import FlexPS.ML.PSBspHistory

/-!
# What a BSP process cache pulls

In every round one thread pulls the keys of all threads and the others pull nothing; what `Pull`
returns is what the servers answered to that one pull.

## Main definitions

* `OnePull`, `RightAnswer` — what a round sends, and what a call of `Pull` returns.
* `BspKeys`, `bspKeys_step` — the invariant of pulls.
-/

namespace FlexPS.ML

open KVStore Lib

variable {Val : Type}

/-! ## The invariant of pulls -/

/-- The keys of the call of `Pull` that the thread is in. -/
def BspPhase.keys : BspPhase Val → Option (List ℕ)
  | asked keys | answering keys | awaiting keys _ | reading keys _ _ _ => some keys
  | _ => none

theorem keys_settled (w : BspThread Val) : w.settled.phase.keys = w.phase.keys := by
  obtain ⟨phase, p, q⟩ := w
  cases phase <;> rfl

theorem answering_settled (w : BspThread Val) (keys : List ℕ) :
    w.settled.phase = .answering keys ↔ w.phase = .answering keys := by
  obtain ⟨phase, p, q⟩ := w
  cases phase <;> simp [BspThread.settled, BspPhase.pullNotified, BspPhase.pushNotified]

theorem reading_settled (w : BspThread Val) (keys todo : List ℕ) (i : ℕ) (vals : List Val) :
    w.settled.phase = .reading keys todo i vals ↔ w.phase = .reading keys todo i vals := by
  obtain ⟨phase, p, q⟩ := w
  cases phase <;> simp [BspThread.settled, BspPhase.pullNotified, BspPhase.pushNotified]

/-- The value stands next to the key. -/
def Answers (pullKeys : List ℕ) (pullVals : List Val) (k : ℕ) (v : Val) : Prop :=
  (k, v) ∈ pullKeys.zip pullVals

/-- What a reading thread can rely on. -/
structure Reading (m : PSBspModel Val) (mutex : Option ℕ) (keys todo : List ℕ) (i : ℕ)
    (vals : List Val) : Prop where
  free : mutex = none
  ahead : ∀ k ∈ todo, k ∈ m.pullKeys.drop i
  done : ∃ done, keys = done ++ todo ∧ List.Forall₂ (Answers m.pullKeys m.pullVals) done vals

/-- All pulls of the round have been sent. -/
def BspSystem.Closed (cfg : BspConfig) (gP : ℕ) (s : BspSystem Val) (r : ℕ) : Prop :=
  r < gP ∨ (r = gP ∧ s.model.pullBarrier.num = cfg.numThreads)

/-- One thread has sent the keys of the round, the others have sent none. -/
def OnePull (cfg : BspConfig) (out : List (BspEvent Val)) (r : ℕ) : Prop :=
  ∃ t₀ < cfg.numThreads, ∀ x ∈ pullsSent out r, x.2 = if x.1 = t₀ then roundKeys cfg out r else []

/-- The thread gets for its keys what the servers have answered. -/
def RightAnswer (cfg : BspConfig) (out : List (BspEvent Val)) (t r : ℕ) (keys : List ℕ)
    (vals : List Val) : Prop :=
  (t, keys) ∈ asksIn out r ∧ ∃ pullVals, answersIn out r = [(roundKeys cfg out r, pullVals)] ∧
    List.Forall₂ (Answers (roundKeys cfg out r) pullVals) keys vals

/-- The invariant of pulls. -/
structure BspKeys (cfg : BspConfig) (gP : ℕ) (out : List (BspEvent Val)) (s : BspSystem Val) :
    Prop where
  marks : ∀ k < cfg.numParams,
    s.model.processCacheKeys k = true ↔ k ∈ (asksIn out gP).flatMap Prod.snd
  mutex : ∀ t, s.pullMutex = some t → t < cfg.numThreads ∧
    ∃ keys, (s.threads t).phase = .answering keys
  answering : ∀ t < cfg.numThreads, ∀ keys, (s.threads t).phase = .answering keys →
    s.pullMutex = some t
  wanted : ∀ t < cfg.numThreads, ∀ keys, (s.threads t).phase.keys = some keys →
    keys.Pairwise (· ≤ ·) ∧ (∀ k ∈ keys, k < cfg.numParams) ∧ (t, keys) ∈ asksIn out gP
  pullKeys : s.model.pullBarrier.num = cfg.numThreads → s.model.pullKeys = roundKeys cfg out gP
  answer : s.model.pullBarrier.num = cfg.numThreads → s.pullMutex = none →
    answersIn out gP = [(s.model.pullKeys, s.model.pullVals)] ∧
      s.model.pullVals.length = s.model.pullKeys.length
  unanswered : (s.model.pullBarrier.num = cfg.numThreads → s.pullMutex ≠ none) →
    answersIn out gP = []
  later : ∀ r, gP < r → answersIn out r = []
  readers : ∀ t < cfg.numThreads, ∀ keys todo i vals,
    (s.threads t).phase = .reading keys todo i vals →
      Reading s.model s.pullMutex keys todo i vals
  sent : ∀ r, s.Closed cfg gP r → OnePull cfg out r
  empty : s.model.pullBarrier.num ≠ cfg.numThreads → ∀ x ∈ pullsSent out gP, x.2 = []
  returned : ∀ t r keys vals, .returned t r keys vals ∈ out →
    s.Closed cfg gP r ∧ RightAnswer cfg out t r keys vals

section Keys

variable {cfg : BspConfig} {gP gQ t : ℕ} {s s' : BspSystem Val} {out o : List (BspEvent Val)}

theorem bspKeys_init [Zero Val] (hT : 0 < cfg.numThreads) :
    BspKeys cfg 0 [] (.init : BspSystem Val) where
  marks _ _ := by simp [BspSystem.init, PSBspModel.new, asksIn]
  mutex _ := nofun
  answering _ _ _ := nofun
  wanted _ _ _ := nofun
  pullKeys h := absurd h hT.ne
  answer h := absurd h hT.ne
  unanswered _ := rfl
  later _ _ := rfl
  readers _ _ _ _ _ _ := nofun
  sent r h := by
    rcases h with h | ⟨-, h⟩
    · cases h
    · exact absurd h hT.ne
  empty _ := nofun
  returned _ _ _ _ := nofun

theorem mem_roundKeys {r k : ℕ} : k ∈ roundKeys cfg out r ↔
    k < cfg.numParams ∧ k ∈ (asksIn out r).flatMap Prod.snd := by
  simp [roundKeys]

theorem roundKeys_congr {out' : List (BspEvent Val)} {r : ℕ} (h : asksIn out' r = asksIn out r) :
    roundKeys cfg out' r = roundKeys cfg out r := by
  rw [roundKeys, roundKeys, h]

/-- What has been answered stays so. -/
theorem RightAnswer.congr {out' : List (BspEvent Val)} {t r : ℕ} {keys : List ℕ} {vals : List Val}
    (h : RightAnswer cfg out t r keys vals) (hasks : asksIn out' r = asksIn out r)
    (hanswers : answersIn out' r = answersIn out r) : RightAnswer cfg out' t r keys vals := by
  unfold RightAnswer
  rw [hasks, hanswers, roundKeys_congr hasks]
  exact h

theorem OnePull.congr {out' : List (BspEvent Val)} {r : ℕ} (h : OnePull cfg out r)
    (hasks : asksIn out' r = asksIn out r) (hsent : pullsSent out' r = pullsSent out r) :
    OnePull cfg out' r := by
  unfold OnePull
  rw [hsent, roundKeys_congr hasks]
  exact h

/-- What a step leaves alone that shows nothing of pulls. -/
structure PullQuiet (s s' : BspSystem Val) (o : List (BspEvent Val)) : Prop where
  mutex : s'.pullMutex = s.pullMutex
  marks : s'.model.processCacheKeys = s.model.processCacheKeys
  pullKeys : s'.model.pullKeys = s.model.pullKeys
  pullVals : s'.model.pullVals = s.model.pullVals
  barrier : s'.model.pullBarrier = s.model.pullBarrier
  asks : ∀ r, asksIn o r = []
  sent : ∀ r, pullsSent o r = []
  answers : ∀ r, answersIn o r = []
  returned : ∀ t r keys vals, .returned t r keys vals ∉ o

theorem PullQuiet.closed (h : PullQuiet s s' o) (r : ℕ) :
    s'.Closed cfg gP r ↔ s.Closed cfg gP r := by
  rw [BspSystem.Closed, BspSystem.Closed, h.barrier]

/-- A step that shows nothing of pulls keeps their invariant. -/
theorem BspKeys.quiet (h : BspKeys cfg gP out s) (hq : PullQuiet s s' o)
    (hothers : ∀ v ≠ t, (s'.threads v).settled = (s.threads v).settled)
    (hanswering : ∀ keys, (s'.threads t).phase = .answering keys ↔
      (s.threads t).phase = .answering keys)
    (hkeys : ∀ keys, (s'.threads t).phase.keys = some keys → (s.threads t).phase.keys = some keys)
    (hreading : t < cfg.numThreads → ∀ keys todo i vals,
      (s'.threads t).phase = .reading keys todo i vals →
        Reading s.model s.pullMutex keys todo i vals) : BspKeys cfg gP (out ++ o) s' := by
  have hasks : ∀ r, asksIn (out ++ o) r = asksIn out r := fun r => by simp [hq.asks]
  have hsent : ∀ r, pullsSent (out ++ o) r = pullsSent out r := fun r => by simp [hq.sent]
  have hanswers : ∀ r, answersIn (out ++ o) r = answersIn out r := fun r => by simp [hq.answers]
  have hanswering' : ∀ v keys, (s'.threads v).phase = .answering keys ↔
      (s.threads v).phase = .answering keys := by
    intro v keys
    by_cases hv : v = t
    · subst hv
      exact hanswering keys
    · rw [← answering_settled, hothers v hv, answering_settled]
  refine ⟨fun k hk => ?_, fun v hv => ?_, fun v hv keys hphase => ?_, fun v hv keys hphase => ?_,
    fun hfull => ?_, fun hfull hfree => ?_, fun hopen => ?_, fun r hr => ?_,
    fun v hv keys todo i vals hphase => ?_, fun r hr => ?_, fun hmore => ?_,
    fun v r keys vals hmem => ?_⟩
  · rw [hq.marks, hasks]
    exact h.marks k hk
  · rw [hq.mutex] at hv
    simp only [hanswering']
    exact h.mutex v hv
  · rw [hq.mutex]
    exact h.answering v hv keys ((hanswering' v keys).mp hphase)
  · rw [hasks]
    by_cases hvt : v = t
    · subst hvt
      exact h.wanted v hv keys (hkeys keys hphase)
    · rw [← keys_settled, hothers v hvt, keys_settled] at hphase
      exact h.wanted v hv keys hphase
  · rw [hq.pullKeys, roundKeys_congr (hasks gP)]
    exact h.pullKeys (hq.barrier ▸ hfull)
  · rw [hanswers, hq.pullKeys, hq.pullVals]
    exact h.answer (hq.barrier ▸ hfull) (hq.mutex ▸ hfree)
  · rw [hanswers]
    rw [hq.barrier, hq.mutex] at hopen
    exact h.unanswered hopen
  · rw [hanswers]
    exact h.later r hr
  · have hreading' : Reading s.model s.pullMutex keys todo i vals := by
      by_cases hvt : v = t
      · subst hvt
        exact hreading hv keys todo i vals hphase
      · rw [← reading_settled, hothers v hvt, reading_settled] at hphase
        exact h.readers v hv keys todo i vals hphase
    obtain ⟨hfree, hahead, hdone⟩ := hreading'
    refine ⟨hq.mutex ▸ hfree, ?_, ?_⟩
    · rw [hq.pullKeys]
      exact hahead
    · rw [hq.pullKeys, hq.pullVals]
      exact hdone
  · exact (h.sent r ((hq.closed r).mp hr)).congr (hasks r) (hsent r)
  · rw [hsent]
    exact h.empty (hq.barrier ▸ hmore)
  · rw [List.mem_append] at hmem
    obtain ⟨hclosed, hright⟩ := h.returned v r keys vals (hmem.resolve_right (hq.returned v r keys vals))
    exact ⟨(hq.closed r).mpr hclosed, hright.congr (hasks r) (hanswers r)⟩

end Keys

/-! ## Steps of a pull -/

theorem answering_of_settled {w w' : BspThread Val} (h : w'.settled = w.settled) {keys : List ℕ} :
    w'.phase = .answering keys ↔ w.phase = .answering keys := by
  rw [← answering_settled, h, answering_settled]

theorem reading_of_settled {w w' : BspThread Val} (h : w'.settled = w.settled) {keys todo : List ℕ}
    {i : ℕ} {vals : List Val} :
    w'.phase = .reading keys todo i vals ↔ w.phase = .reading keys todo i vals := by
  rw [← reading_settled, h, reading_settled]

theorem keys_of_settled {w w' : BspThread Val} (h : w'.settled = w.settled) :
    w'.phase.keys = w.phase.keys := by
  rw [← keys_settled, h, keys_settled]

/-- A thread in a call of `Pull` is past its last push barrier. -/
theorem BspThread.Shape.of_keys {w : BspThread Val} (h : w.Shape) {keys : List ℕ}
    (hkeys : w.phase.keys = some keys) : w.count .leavePull = w.count .leavePush := by
  obtain ⟨phase, p, q⟩ := w
  cases phase <;> simp [Shape, count, BspPhase.ahead, BspPhase.keys] at h hkeys ⊢ <;> omega

section PullSteps

variable {cfg : BspConfig} {gP gQ t : ℕ} {s s' : BspSystem Val} {out : List (BspEvent Val)}

/-- Nobody reads before the barrier is full. -/
theorem BspRounds.no_reader (h : BspRounds cfg gP gQ s)
    (hmore : s.model.pullBarrier.num ≠ cfg.numThreads) {v : ℕ} (hv : v < cfg.numThreads)
    {keys todo : List ℕ} {i : ℕ} {vals : List Val} :
    (s.threads v).phase ≠ .reading keys todo i vals := by
  intro hphase
  refine hmore (h.metPull v hv ?_)
  rw [hphase]
  trivial

/-- A thread marks its keys. -/
theorem BspKeys.ask (h : BspKeys cfg gP out s) (hrounds : BspRounds cfg gP gQ s)
    (ht : t < cfg.numThreads) {p : ℕ} {keys : List ℕ} (hw : s.threads t = ⟨.idle, p, p⟩)
    (hkeys : ∀ k ∈ keys, k < cfg.numParams) (hsorted : keys.Pairwise (· ≤ ·))
    (hmodel : s'.model = s.model.mark keys) (hmutex : s'.pullMutex = s.pullMutex)
    (hw' : s'.threads t = ⟨.asked keys, p + 1, p⟩)
    (hothers : ∀ v ≠ t, (s'.threads v).settled = (s.threads v).settled) :
    BspKeys cfg gP (out ++ [.asked t p keys]) s' := by
  have hcount : s.count .arrivePull t = p ∧ s.count .leavePull t = p ∧ s.count .leavePush t = p := by
    rw [BspSystem.count, BspSystem.count, BspSystem.count, hw]
    exact ⟨rfl, rfl, rfl⟩
  have hgP : gP = p := by
    have := hrounds.gP_eq ht (hcount.2.1.trans hcount.2.2.symm)
    omega
  have hmore : s.model.pullBarrier.num ≠ cfg.numThreads := by
    intro hfull
    have := hrounds.pull.full_iff.mp hfull t ht
    omega
  have hbarrier : s'.model.pullBarrier = s.model.pullBarrier := by rw [hmodel, PSBspModel.mark]
  have hmore' : s'.model.pullBarrier.num ≠ cfg.numThreads := by rwa [hbarrier]
  have hasks : asksIn (out ++ [.asked t p keys]) gP = asksIn out gP ++ [(t, keys)] := by
    rw [asksIn_append]
    simp [asksIn, hgP]
  have hasks' : ∀ r, r ≠ gP → asksIn (out ++ [.asked t p keys]) r = asksIn out r := by
    intro r hr
    rw [asksIn_append]
    simp [asksIn, Ne.symm (hgP ▸ hr)]
  have hsent : ∀ r, pullsSent (out ++ [.asked t p keys]) r = pullsSent out r :=
    fun r => by simp [pullsSent]
  have hanswers : ∀ r, answersIn (out ++ [.asked t p keys]) r = answersIn out r :=
    fun r => by simp [answersIn]
  have hclosed : ∀ r, s'.Closed cfg gP r → s.Closed cfg gP r ∧ r ≠ gP := by
    rintro r (hr | ⟨-, hfull⟩)
    · exact ⟨.inl hr, hr.ne⟩
    · exact absurd hfull hmore'
  refine ⟨fun k hk => ?_, fun v hv => ?_, fun v hv keys' hphase => ?_,
    fun v hv keys' hphase => ?_, fun hfull => absurd hfull hmore', fun hfull => absurd hfull hmore',
    fun _ => ?_, fun r hr => ?_, fun v hv keys' todo i vals hphase => ?_, fun r hr => ?_,
    fun _ => ?_, fun v r keys' vals hmem => ?_⟩
  · rw [hasks, List.flatMap_append, List.mem_append, ← h.marks k hk, hmodel]
    simp [PSBspModel.mark]
  · rw [hmutex] at hv
    obtain ⟨hvT, keys', hphase⟩ := h.mutex v hv
    refine ⟨hvT, keys', ?_⟩
    have hvt : v ≠ t := by
      rintro rfl
      rw [hw] at hphase
      cases hphase
    exact (answering_of_settled (hothers v hvt)).mpr hphase
  · have hvt : v ≠ t := by
      rintro rfl
      rw [hw'] at hphase
      cases hphase
    rw [hmutex]
    exact h.answering v hv keys' ((answering_of_settled (hothers v hvt)).mp hphase)
  · rw [hasks]
    by_cases hvt : v = t
    · subst hvt
      rw [hw'] at hphase
      obtain rfl := Option.some.inj hphase
      exact ⟨hsorted, hkeys, List.mem_append_right _ (List.mem_singleton_self _)⟩
    · rw [keys_of_settled (hothers v hvt)] at hphase
      obtain ⟨hsorted', hkeys', hmem⟩ := h.wanted v hv keys' hphase
      exact ⟨hsorted', hkeys', List.mem_append_left _ hmem⟩
  · rw [hanswers]
    exact h.unanswered fun hfull => absurd hfull hmore
  · rw [hanswers]
    exact h.later r hr
  · by_cases hvt : v = t
    · subst hvt
      rw [hw'] at hphase
      cases hphase
    · rw [reading_of_settled (hothers v hvt)] at hphase
      exact absurd hphase (hrounds.no_reader hmore hv)
  · obtain ⟨hr, hne⟩ := hclosed r hr
    exact (h.sent r hr).congr (hasks' r hne) (hsent r)
  · rw [hsent]
    exact h.empty hmore
  · have hmem := (List.mem_append.mp hmem).resolve_right (by simp)
    obtain ⟨hr, hright⟩ := h.returned v r keys' vals hmem
    rcases hr with hr | ⟨-, hfull⟩
    · exact ⟨.inl hr, hright.congr (hasks' r hr.ne) (hanswers r)⟩
    · exact absurd hfull hmore

/-- What the threads that do not move keep, when the calls of the round stay the same. -/
theorem BspKeys.wanted_congr (h : BspKeys cfg gP out s) {out' : List (BspEvent Val)}
    (hasks : asksIn out' gP = asksIn out gP)
    (hothers : ∀ v ≠ t, (s'.threads v).settled = (s.threads v).settled)
    (hself : (s'.threads t).phase.keys = (s.threads t).phase.keys) :
    ∀ v < cfg.numThreads, ∀ keys, (s'.threads v).phase.keys = some keys →
      keys.Pairwise (· ≤ ·) ∧ (∀ k ∈ keys, k < cfg.numParams) ∧ (v, keys) ∈ asksIn out' gP := by
  intro v hv keys hphase
  rw [hasks]
  by_cases hvt : v = t
  · subst hvt
    exact h.wanted v hv keys (hself ▸ hphase)
  · rw [keys_of_settled (hothers v hvt)] at hphase
    exact h.wanted v hv keys hphase

/-- The last thread sends the keys of all. -/
theorem BspKeys.arriveLast (h : BspKeys cfg gP out s) (hrounds : BspRounds cfg gP gQ s)
    (hpulls : OncePerRound cfg.numThreads (fun r => (pullsSent out r).map Prod.fst)
      (s.count .arrivePull))
    (ht : t < cfg.numThreads) {p q : ℕ} {keys : List ℕ} (hw : s.threads t = ⟨.asked keys, p, q⟩)
    (hfree : s.pullMutex = none) (hlast : s.model.pullBarrier.num + 1 = cfg.numThreads)
    (hmodel : s'.model = { s.model with
      pullBarrier := s.model.pullBarrier.arrive
      pullKeys := s.model.keysToPull cfg.numParams
      pullVals := [] })
    (hmutex : s'.pullMutex = some t) (hw' : s'.threads t = ⟨.answering keys, p, q⟩)
    (hothers : ∀ v ≠ t, (s'.threads v).settled = (s.threads v).settled) :
    BspKeys cfg gP (out ++ [.sentPull t (p - 1) (s.model.keysToPull cfg.numParams)]) s' := by
  set o : List (BspEvent Val) := [.sentPull t (p - 1) (s.model.keysToPull cfg.numParams)] with ho
  have hcount : s.count .arrivePull t = p - 1 := by
    rw [BspSystem.count, hw]
    rfl
  have hgP : gP = p - 1 := by
    have hphase : (s.threads t).phase.keys = some keys := by rw [hw]; rfl
    have hleave : s.count .leavePull t = p - 1 := by
      rw [BspSystem.count, hw]
      rfl
    rw [← hleave]
    exact hrounds.gP_eq ht ((hrounds.shape t ht).of_keys hphase)
  have hmore : s.model.pullBarrier.num ≠ cfg.numThreads := by omega
  have hfull' : s'.model.pullBarrier.num = cfg.numThreads := by rw [hmodel, ← hlast]; rfl
  have hasks : ∀ r, asksIn (out ++ o) r = asksIn out r := fun r => by simp [asksIn, ho]
  have hanswers : ∀ r, answersIn (out ++ o) r = answersIn out r := fun r => by simp [answersIn, ho]
  have hsent : ∀ r, r ≠ gP → pullsSent (out ++ o) r = pullsSent out r := by
    intro r hr
    rw [pullsSent_append]
    simp [pullsSent, ho, Ne.symm (hgP ▸ hr)]
  have hkeysToPull : s.model.keysToPull cfg.numParams = roundKeys cfg out gP := by
    refine List.filter_congr fun k hk => ?_
    rw [Bool.eq_iff_iff, h.marks k (List.mem_range.mp hk), decide_eq_true_eq]
  have hpullKeys : s'.model.pullKeys = roundKeys cfg out gP := by rw [hmodel, hkeysToPull]
  refine ⟨fun k hk => ?_, fun v hv => ?_, fun v hv keys' hphase => ?_,
    h.wanted_congr (hasks gP) hothers (by rw [hw, hw']; rfl), fun _ => ?_,
    fun _ hfree' => ?_, fun _ => ?_, fun r hr => ?_, fun v hv keys' todo i vals hphase => ?_,
    fun r hr => ?_, fun hmore' => absurd hfull' hmore', fun v r keys' vals hmem => ?_⟩
  · rw [hasks, ← h.marks k hk, hmodel]
  · rw [hmutex] at hv
    obtain rfl := Option.some.inj hv
    exact ⟨ht, keys, by rw [hw']⟩
  · by_cases hvt : v = t
    · rw [hvt, hmutex]
    · have hmutex' := h.answering v hv keys' ((answering_of_settled (hothers v hvt)).mp hphase)
      rw [hfree] at hmutex'
      cases hmutex'
  · rw [hpullKeys, roundKeys_congr (hasks gP)]
  · rw [hmutex] at hfree'
    cases hfree'
  · rw [hanswers]
    exact h.unanswered fun hfull => absurd hfull hmore
  · rw [hanswers]
    exact h.later r hr
  · by_cases hvt : v = t
    · subst hvt
      rw [hw'] at hphase
      cases hphase
    · rw [reading_of_settled (hothers v hvt)] at hphase
      exact absurd hphase (hrounds.no_reader hmore hv)
  · by_cases hne : r = gP
    · subst hne
      refine ⟨t, ht, fun x hx => ?_⟩
      rw [roundKeys_congr (hasks r), ← hkeysToPull]
      rw [pullsSent_append, List.mem_append] at hx
      rcases hx with hx | hx
      · have hx1 : x.1 ≠ t := by
          intro hxt
          have hmem := ((hpulls r).2 x.1).mp (List.mem_map_of_mem hx)
          rw [hxt, hcount] at hmem
          omega
        rw [if_neg hx1]
        exact h.empty hmore x hx
      · obtain rfl : x = (t, s.model.keysToPull cfg.numParams) := by
          simpa [pullsSent, ho, hgP] using hx
        rw [if_pos rfl]
    · refine (h.sent r ?_).congr (hasks r) (hsent r hne)
      rcases hr with hr | ⟨hr, -⟩
      · exact .inl hr
      · exact absurd hr hne
  · have hmem := (List.mem_append.mp hmem).resolve_right (by simp [ho])
    obtain ⟨hr, hright⟩ := h.returned v r keys' vals hmem
    refine ⟨?_, hright.congr (hasks r) (hanswers r)⟩
    rcases hr with hr | ⟨-, hfull⟩
    · exact .inl hr
    · exact absurd hfull hmore

/-- Another thread sends an empty pull. -/
theorem BspKeys.arrive (h : BspKeys cfg gP out s) (hrounds : BspRounds cfg gP gQ s)
    (ht : t < cfg.numThreads) {p q : ℕ} {keys : List ℕ} (hw : s.threads t = ⟨.asked keys, p, q⟩)
    (hmore : s.model.pullBarrier.num + 1 < cfg.numThreads)
    (hmodel : s'.model = { s.model with pullBarrier := s.model.pullBarrier.arrive })
    (hmutex : s'.pullMutex = s.pullMutex) (hw' : s'.threads t = ⟨.awaiting keys false, p, q⟩)
    (hothers : ∀ v ≠ t, (s'.threads v).settled = (s.threads v).settled) :
    BspKeys cfg gP (out ++ [.sentPull t (p - 1) []]) s' := by
  set o : List (BspEvent Val) := [.sentPull t (p - 1) []] with ho
  have hgP : gP = p - 1 := by
    have hphase : (s.threads t).phase.keys = some keys := by rw [hw]; rfl
    have hleave : s.count .leavePull t = p - 1 := by
      rw [BspSystem.count, hw]
      rfl
    rw [← hleave]
    exact hrounds.gP_eq ht ((hrounds.shape t ht).of_keys hphase)
  have hmore' : s'.model.pullBarrier.num ≠ cfg.numThreads := by
    rw [hmodel]
    exact hmore.ne
  have hmore : s.model.pullBarrier.num ≠ cfg.numThreads := by omega
  have hasks : ∀ r, asksIn (out ++ o) r = asksIn out r := fun r => by simp [asksIn, ho]
  have hanswers : ∀ r, answersIn (out ++ o) r = answersIn out r := fun r => by simp [answersIn, ho]
  have hclosed : ∀ r, s'.Closed cfg gP r → s.Closed cfg gP r ∧ r ≠ gP := by
    rintro r (hr | ⟨-, hfull⟩)
    · exact ⟨.inl hr, hr.ne⟩
    · exact absurd hfull hmore'
  refine ⟨fun k hk => ?_, fun v hv => ?_, fun v hv keys' hphase => ?_,
    h.wanted_congr (hasks gP) hothers (by rw [hw, hw']; rfl), fun hfull => absurd hfull hmore',
    fun hfull => absurd hfull hmore', fun _ => ?_, fun r hr => ?_,
    fun v hv keys' todo i vals hphase => ?_, fun r hr => ?_, fun _ => ?_,
    fun v r keys' vals hmem => ?_⟩
  · rw [hasks, ← h.marks k hk, hmodel]
  · rw [hmutex] at hv
    obtain ⟨hvT, keys', hphase⟩ := h.mutex v hv
    refine ⟨hvT, keys', ?_⟩
    have hvt : v ≠ t := by
      rintro rfl
      rw [hw] at hphase
      cases hphase
    exact (answering_of_settled (hothers v hvt)).mpr hphase
  · have hvt : v ≠ t := by
      rintro rfl
      rw [hw'] at hphase
      cases hphase
    rw [hmutex]
    exact h.answering v hv keys' ((answering_of_settled (hothers v hvt)).mp hphase)
  · rw [hanswers]
    exact h.unanswered fun hfull => absurd hfull hmore
  · rw [hanswers]
    exact h.later r hr
  · by_cases hvt : v = t
    · subst hvt
      rw [hw'] at hphase
      cases hphase
    · rw [reading_of_settled (hothers v hvt)] at hphase
      exact absurd hphase (hrounds.no_reader hmore hv)
  · obtain ⟨hr, hne⟩ := hclosed r hr
    refine (h.sent r hr).congr (hasks r) ?_
    rw [pullsSent_append]
    simp [pullsSent, ho, Ne.symm (hgP ▸ hne)]
  · intro x hx
    rw [pullsSent_append, List.mem_append] at hx
    rcases hx with hx | hx
    · exact h.empty hmore x hx
    · obtain rfl : x = (t, []) := by simpa [pullsSent, ho, hgP] using hx
      rfl
  · have hmem := (List.mem_append.mp hmem).resolve_right (by simp [ho])
    obtain ⟨hr, hright⟩ := h.returned v r keys' vals hmem
    refine ⟨?_, hright.congr (hasks r) (hanswers r)⟩
    rcases hr with hr | ⟨-, hfull⟩
    · exact .inl hr
    · exact absurd hfull hmore

/-- The servers answer. -/
theorem BspKeys.servers (h : BspKeys cfg gP out s) (hrounds : BspRounds cfg gP gQ s)
    (ht : t < cfg.numThreads) {p q : ℕ} {keys : List ℕ} {vals : List Val}
    (hw : s.threads t = ⟨.answering keys, p, q⟩) (hlen : vals.length = s.model.pullKeys.length)
    (hmodel : s'.model = { s.model with pullVals := vals })
    (hmutex : s'.pullMutex = none) (hw' : s'.threads t = ⟨.reading keys keys 0 [], p, q⟩)
    (hothers : ∀ v ≠ t, (s'.threads v).settled = (s.threads v).settled) :
    BspKeys cfg gP (out ++ [.answered (p - 1) s.model.pullKeys vals]) s' := by
  set o : List (BspEvent Val) := [.answered (p - 1) s.model.pullKeys vals] with ho
  have hgP : gP = p - 1 := by
    have hphase : (s.threads t).phase.keys = some keys := by rw [hw]; rfl
    have hleave : s.count .leavePull t = p - 1 := by
      rw [BspSystem.count, hw]
      rfl
    rw [← hleave]
    exact hrounds.gP_eq ht ((hrounds.shape t ht).of_keys hphase)
  have hheld : s.pullMutex = some t := h.answering t ht keys (by rw [hw])
  have hfull : s.model.pullBarrier.num = cfg.numThreads := by
    refine hrounds.metPull t ht ?_
    rw [hw]
    trivial
  have hbarrier : s'.model.pullBarrier = s.model.pullBarrier := by rw [hmodel]
  have hpullKeys : s'.model.pullKeys = s.model.pullKeys := by rw [hmodel]
  have hpullVals : s'.model.pullVals = vals := by rw [hmodel]
  have hasks : ∀ r, asksIn (out ++ o) r = asksIn out r := fun r => by simp [asksIn, ho]
  have hsent : ∀ r, pullsSent (out ++ o) r = pullsSent out r := fun r => by simp [pullsSent, ho]
  have hnone : answersIn out gP = [] := h.unanswered fun _ => by simp [hheld]
  have hanswer : answersIn (out ++ o) gP = [(s.model.pullKeys, vals)] := by
    rw [answersIn_append, hnone]
    simp [answersIn, ho, hgP]
  have hanswers : ∀ r, r ≠ gP → answersIn (out ++ o) r = answersIn out r := by
    intro r hr
    rw [answersIn_append]
    simp [answersIn, ho, Ne.symm (hgP ▸ hr)]
  have hreading : ∀ v < cfg.numThreads, v ≠ t → ∀ keys', (s.threads v).phase ≠ .answering keys' := by
    intro v hv hvt keys' hphase
    have := h.answering v hv keys' hphase
    rw [hheld] at this
    exact hvt (Option.some.inj this).symm
  refine ⟨fun k hk => ?_, fun v hv => ?_, fun v hv keys' hphase => ?_,
    h.wanted_congr (hasks gP) hothers (by rw [hw, hw']; rfl), fun _ => ?_, fun _ _ => ?_,
    fun hopen => ?_, fun r hr => ?_, fun v hv keys' todo i vals' hphase => ?_, fun r hr => ?_,
    fun hmore => absurd (hbarrier ▸ hfull) hmore, fun v r keys' vals' hmem => ?_⟩
  · rw [hasks, ← h.marks k hk, hmodel]
  · rw [hmutex] at hv
    cases hv
  · by_cases hvt : v = t
    · subst hvt
      rw [hw'] at hphase
      cases hphase
    · exact absurd ((answering_of_settled (hothers v hvt)).mp hphase) (hreading v hv hvt keys')
  · rw [hpullKeys, roundKeys_congr (hasks gP)]
    exact h.pullKeys hfull
  · rw [hpullKeys, hpullVals]
    exact ⟨hanswer, hlen⟩
  · exact absurd hmutex (hopen (hbarrier ▸ hfull))
  · rw [hanswers r hr.ne']
    exact h.later r hr
  · by_cases hvt : v = t
    · subst hvt
      rw [hw'] at hphase
      obtain ⟨rfl, rfl, rfl, rfl⟩ := BspPhase.reading.inj hphase
      refine ⟨hmutex, fun k hk => ?_, [], rfl, .nil⟩
      obtain ⟨-, hkeys, hmem⟩ := h.wanted v hv keys (by rw [hw]; rfl)
      rw [hpullKeys, h.pullKeys hfull, List.drop_zero, mem_roundKeys]
      exact ⟨hkeys k hk, List.mem_flatMap.mpr ⟨_, hmem, hk⟩⟩
    · rw [reading_of_settled (hothers v hvt)] at hphase
      have hfree := (h.readers v hv keys' todo i vals' hphase).free
      rw [hheld] at hfree
      cases hfree
  · rw [BspSystem.Closed, hbarrier] at hr
    exact (h.sent r hr).congr (hasks r) (hsent r)
  · have hmem := (List.mem_append.mp hmem).resolve_right (by simp [ho])
    obtain ⟨hr, hright⟩ := h.returned v r keys' vals' hmem
    rw [BspSystem.Closed, hbarrier]
    refine ⟨hr, ?_⟩
    by_cases hne : r = gP
    · obtain ⟨-, pullVals, heq, -⟩ := hright
      rw [hne, hnone] at heq
      cases heq
    · exact hright.congr (hasks r) (hanswers r hne)

/-- What a thread returns that has read all its keys. -/
theorem BspKeys.right (h : BspKeys cfg gP out s)
    (hfull : s.model.pullBarrier.num = cfg.numThreads) (ht : t < cfg.numThreads)
    {keys : List ℕ} {i : ℕ} {vals : List Val} (hphase : (s.threads t).phase = .reading keys [] i vals) :
    RightAnswer cfg out t gP keys vals := by
  obtain ⟨hfree, -, done, hkeys, hdone⟩ := h.readers t ht keys [] i vals hphase
  rw [List.append_nil] at hkeys
  subst hkeys
  obtain ⟨-, -, hmem⟩ := h.wanted t ht keys (by rw [hphase]; rfl)
  have hanswer := (h.answer hfull hfree).1
  rw [h.pullKeys hfull] at hanswer hdone
  exact ⟨hmem, s.model.pullVals, hanswer, hdone⟩

/-- A thread returns from `Pull`, and others are still in it. -/
theorem BspKeys.leave (h : BspKeys cfg gP out s) (ht : t < cfg.numThreads)
    (hfull : s.model.pullBarrier.num = cfg.numThreads) {p q i : ℕ} {keys : List ℕ} {vals : List Val}
    (hw : s.threads t = ⟨.reading keys [] i vals, p, q⟩) (hgP : gP = p - 1)
    (hlast : s.model.pullBarrier.lastToLeave cfg.numThreads = false)
    (hmodel : s'.model = s.model.leavePull cfg.numThreads) (hmutex : s'.pullMutex = s.pullMutex)
    (hw' : s'.threads t = ⟨.idle, p, q⟩)
    (hothers : ∀ v ≠ t, (s'.threads v).settled = (s.threads v).settled) :
    BspKeys cfg gP (out ++ [.returned t (p - 1) keys vals]) s' := by
  set o : List (BspEvent Val) := [.returned t (p - 1) keys vals] with ho
  have hright : RightAnswer cfg out t gP keys vals := h.right hfull ht (by rw [hw])
  have hnum : s'.model.pullBarrier.num = s.model.pullBarrier.num := by
    rw [hmodel, PSBspModel.leavePull, Barrier.leave, hlast]
    rfl
  have hasks : ∀ r, asksIn (out ++ o) r = asksIn out r := fun r => by simp [asksIn, ho]
  have hsent : ∀ r, pullsSent (out ++ o) r = pullsSent out r := fun r => by simp [pullsSent, ho]
  have hanswers : ∀ r, answersIn (out ++ o) r = answersIn out r := fun r => by simp [answersIn, ho]
  have hmarks : s'.model.processCacheKeys = s.model.processCacheKeys := by
    rw [hmodel, PSBspModel.leavePull, hlast]
    rfl
  have hpullKeys : s'.model.pullKeys = s.model.pullKeys := by rw [hmodel, PSBspModel.leavePull]
  have hpullVals : s'.model.pullVals = s.model.pullVals := by rw [hmodel, PSBspModel.leavePull]
  have hclosed : ∀ r, s'.Closed cfg gP r ↔ s.Closed cfg gP r := by
    intro r
    rw [BspSystem.Closed, BspSystem.Closed, hnum]
  refine ⟨fun k hk => ?_, fun v hv => ?_, fun v hv keys' hphase => ?_,
    fun v hv keys' hphase => ?_, fun _ => ?_, fun _ hfree => ?_, fun hopen => ?_, fun r hr => ?_,
    fun v hv keys' todo i vals' hphase => ?_, fun r hr => ?_, fun hmore => ?_,
    fun v r keys' vals' hmem => ?_⟩
  · rw [hasks, ← h.marks k hk, hmarks]
  · rw [hmutex] at hv
    obtain ⟨hvT, keys', hphase⟩ := h.mutex v hv
    refine ⟨hvT, keys', ?_⟩
    have hvt : v ≠ t := by
      rintro rfl
      rw [hw] at hphase
      cases hphase
    exact (answering_of_settled (hothers v hvt)).mpr hphase
  · have hvt : v ≠ t := by
      rintro rfl
      rw [hw'] at hphase
      cases hphase
    rw [hmutex]
    exact h.answering v hv keys' ((answering_of_settled (hothers v hvt)).mp hphase)
  · have hvt : v ≠ t := by
      rintro rfl
      rw [hw'] at hphase
      cases hphase
    rw [hasks]
    rw [keys_of_settled (hothers v hvt)] at hphase
    exact h.wanted v hv keys' hphase
  · rw [hpullKeys, roundKeys_congr (hasks gP)]
    exact h.pullKeys hfull
  · rw [hanswers, hpullKeys, hpullVals]
    exact h.answer hfull (hmutex ▸ hfree)
  · rw [hanswers]
    rw [hnum, hmutex] at hopen
    exact h.unanswered hopen
  · rw [hanswers]
    exact h.later r hr
  · have hvt : v ≠ t := by
      rintro rfl
      rw [hw'] at hphase
      cases hphase
    rw [reading_of_settled (hothers v hvt)] at hphase
    obtain ⟨hfree, hahead, hdone⟩ := h.readers v hv keys' todo i vals' hphase
    refine ⟨hmutex ▸ hfree, ?_, ?_⟩
    · rw [hpullKeys]
      exact hahead
    · rw [hpullKeys, hpullVals]
      exact hdone
  · exact (h.sent r ((hclosed r).mp hr)).congr (hasks r) (hsent r)
  · rw [hnum] at hmore
    exact absurd hfull hmore
  · rw [hclosed]
    rcases List.mem_append.mp hmem with hmem | hmem
    · obtain ⟨hr, hright'⟩ := h.returned v r keys' vals' hmem
      exact ⟨hr, hright'.congr (hasks r) (hanswers r)⟩
    · obtain ⟨rfl, rfl, rfl, rfl⟩ := BspEvent.returned.inj (List.mem_singleton.mp hmem)
      rw [← hgP]
      exact ⟨.inr ⟨rfl, hfull⟩, hright.congr (hasks gP) (hanswers gP)⟩

/-- **The last thread returns from `Pull`**, and the next round begins with nothing in it. -/
theorem BspKeys.leaveLast (h : BspKeys cfg gP out s) (hrounds : BspRounds cfg gP gQ s)
    (hhistory : BspHistory cfg gP gQ out s) (ht : t < cfg.numThreads)
    (hfull : s.model.pullBarrier.num = cfg.numThreads) {p q i : ℕ} {keys : List ℕ} {vals : List Val}
    (hw : s.threads t = ⟨.reading keys [] i vals, p, q⟩) (hgP : gP = p - 1)
    (hlast : s.model.pullBarrier.lastToLeave cfg.numThreads = true)
    (hmodel : s'.model = s.model.leavePull cfg.numThreads) (hmutex : s'.pullMutex = s.pullMutex)
    (hw' : s'.threads t = ⟨.idle, p, q⟩)
    (hothers : ∀ v ≠ t, (s'.threads v).settled = (s.threads v).settled) :
    BspKeys cfg (gP + 1) (out ++ [.returned t (p - 1) keys vals, .pullReset (p - 1)]) s' := by
  set o : List (BspEvent Val) := [.returned t (p - 1) keys vals, .pullReset (p - 1)] with ho
  have hright : RightAnswer cfg out t gP keys vals := h.right hfull ht (by rw [hw])
  have hmore' : s'.model.pullBarrier.num ≠ cfg.numThreads := by
    have hreset : s.model.pullBarrier.leave cfg.numThreads = ⟨0, 0⟩ := if_pos hlast
    rw [hmodel, PSBspModel.leavePull, hreset]
    exact (Nat.zero_lt_of_lt ht).ne
  have hasks : ∀ r, asksIn (out ++ o) r = asksIn out r := fun r => by simp [asksIn, ho]
  have hsent : ∀ r, pullsSent (out ++ o) r = pullsSent out r := fun r => by simp [pullsSent, ho]
  have hanswers : ∀ r, answersIn (out ++ o) r = answersIn out r := fun r => by simp [answersIn, ho]
  have hasks_nil : asksIn out (gP + 1) = [] :=
    hhistory.asks.eq_nil fun v hv => hrounds.ask_le hv
  have hsent_nil : pullsSent out (gP + 1) = [] :=
    hhistory.pulls.eq_nil fun v hv => hrounds.pull.arrivals_le v hv
  -- the others have left already
  have hgone : ∀ v < cfg.numThreads, ∀ keys', (s'.threads v).phase.keys ≠ some keys' := by
    intro v hv keys' hphase
    by_cases hvt : v = t
    · subst hvt
      rw [hw'] at hphase
      cases hphase
    · rw [keys_of_settled (hothers v hvt)] at hphase
      have hv_eq := hrounds.gP_eq hv ((hrounds.shape v hv).of_keys hphase)
      have hleave : s.count .leavePull t = gP := by
        rw [BspSystem.count, hw, hgP]
        rfl
      rcases hrounds.pull.leave ht hleave hfull with ⟨-, hall, -⟩ | ⟨hnot, -⟩
      · have := hall v hv
        rw [advance_of_ne _ hvt] at this
        omega
      · rw [hlast] at hnot
        cases hnot
  refine ⟨fun k hk => ?_, fun v hv => ?_, fun v hv keys' hphase => ?_,
    fun v hv keys' hphase => absurd hphase (hgone v hv keys'), fun hfull' => absurd hfull' hmore',
    fun hfull' => absurd hfull' hmore', fun _ => ?_, fun r hr => ?_,
    fun v hv keys' todo i vals' hphase => ?_, fun r hr => ?_, fun _ => ?_,
    fun v r keys' vals' hmem => ?_⟩
  · rw [hasks, hasks_nil, hmodel, PSBspModel.leavePull, if_pos hlast]
    simp
  · rw [hmutex] at hv
    obtain ⟨hvT, keys', hphase⟩ := h.mutex v hv
    have hvt : v ≠ t := by
      rintro rfl
      rw [hw] at hphase
      cases hphase
    rw [← answering_of_settled (hothers v hvt)] at hphase
    exact absurd (by rw [hphase]; rfl) (hgone v hvT keys')
  · exact absurd (by rw [hphase]; rfl) (hgone v hv keys')
  · rw [hanswers]
    exact h.later _ (Nat.lt_succ_self gP)
  · rw [hanswers]
    exact h.later r (Nat.lt_of_succ_lt hr)
  · exact absurd (by rw [hphase]; rfl) (hgone v hv keys')
  · refine (h.sent r ?_).congr (hasks r) (hsent r)
    rcases hr with hr | ⟨-, hfull'⟩
    · rcases Nat.lt_succ_iff_lt_or_eq.mp hr with hlt | heq
      · exact .inl hlt
      · exact .inr ⟨heq, hfull⟩
    · exact absurd hfull' hmore'
  · rw [hsent, hsent_nil]
    exact List.forall_mem_nil _
  · rcases List.mem_append.mp hmem with hmem | hmem
    · obtain ⟨hr, hright'⟩ := h.returned v r keys' vals' hmem
      refine ⟨.inl ?_, hright'.congr (hasks r) (hanswers r)⟩
      rcases hr with hr | ⟨rfl, -⟩
      · exact Nat.lt_succ_of_lt hr
      · exact Nat.lt_succ_self r
    · have hmem : BspEvent.returned v r keys' vals' = .returned t (p - 1) keys vals := by
        simpa [ho] using hmem
      obtain ⟨rfl, rfl, rfl, rfl⟩ := BspEvent.returned.inj hmem
      rw [← hgP]
      exact ⟨.inl (Nat.lt_succ_self gP), hright.congr (hasks gP) (hanswers gP)⟩

end PullSteps

/-! ## The loop over the keys -/

/-- One step of the loop over the keys: `pull_keys_` is sorted, so that nothing is passed that is
still to come. -/
theorem Reading.skip {m : PSBspModel Val} {mutex : Option ℕ} {keys todo : List ℕ} {k k' i : ℕ}
    {vals : List Val} (h : Reading m mutex keys (k :: todo) i vals)
    (hkeys : keys.Pairwise (· ≤ ·)) (hpull : m.pullKeys.Pairwise (· < ·))
    (hget : m.pullKeys[i]? = some k') (hne : k' ≠ k) :
    Reading m mutex keys (k :: todo) (i + 1) vals := by
  refine ⟨h.free, fun x hx => ?_, h.done⟩
  have hdrop : m.pullKeys.drop i = k' :: m.pullKeys.drop (i + 1) := by
    obtain ⟨hi, heq⟩ := List.getElem?_eq_some_iff.mp hget
    rw [List.drop_eq_getElem_cons hi, heq]
  have hahead := h.ahead
  rw [hdrop] at hahead
  have hsorted : (k' :: m.pullKeys.drop (i + 1)).Pairwise (· < ·) :=
    hdrop ▸ hpull.sublist (List.drop_sublist i _)
  have hk : k' < k := by
    have hmem := (List.mem_cons.mp (hahead k (List.mem_cons_self ..))).resolve_left hne.symm
    exact List.rel_of_pairwise_cons hsorted hmem
  have hle : k ≤ x := by
    obtain ⟨done, hdone, -⟩ := h.done
    have htodo : (k :: todo).Pairwise (· ≤ ·) :=
      hkeys.sublist (hdone ▸ List.sublist_append_right done _)
    rcases List.mem_cons.mp hx with rfl | hx
    · exact le_rfl
    · exact List.rel_of_pairwise_cons htodo hx
  exact (List.mem_cons.mp (hahead x hx)).resolve_left (by omega)

theorem Reading.take {m : PSBspModel Val} {mutex : Option ℕ} {keys todo : List ℕ} {k i : ℕ}
    {vals : List Val} {v : Val} (h : Reading m mutex keys (k :: todo) i vals)
    (hget : m.pullKeys[i]? = some k) (hval : m.pullVals[i]? = some v) :
    Reading m mutex keys todo i (vals ++ [v]) := by
  obtain ⟨done, hdone, hanswers⟩ := h.done
  refine ⟨h.free, fun x hx => h.ahead x (List.mem_cons_of_mem _ hx), done ++ [k], ?_, ?_⟩
  · rw [hdone, List.append_assoc, List.singleton_append]
  · refine List.rel_append hanswers (.cons ?_ .nil)
    refine List.mem_iff_getElem?.mpr ⟨i, ?_⟩
    rw [List.getElem?_zip_eq_some]
    exact ⟨hget, hval⟩

theorem pairwise_roundKeys (cfg : BspConfig) (out : List (BspEvent Val)) (r : ℕ) :
    (roundKeys cfg out r).Pairwise (· < ·) :=
  List.pairwise_lt_range.filter _

/-! ## Every step -/

/-- The event belongs to a call of `Pull`. -/
def BspEvent.ofPull : BspEvent Val → Bool
  | asked .. | sentPull .. | answered .. | returned .. | pullReset .. => true
  | pushed .. | sentPush .. | pushReset .. => false

section Lists

variable {o : List (BspEvent Val)} (ho : ∀ e ∈ o, e.ofPull = false)

include ho

theorem asksIn_eq_nil (r : ℕ) : asksIn o r = [] := by
  refine List.filterMap_eq_nil_iff.mpr fun e he => ?_
  cases e <;> first | rfl | cases ho _ he

theorem pullsSent_eq_nil (r : ℕ) : pullsSent o r = [] := by
  refine List.filterMap_eq_nil_iff.mpr fun e he => ?_
  cases e <;> first | rfl | cases ho _ he

theorem answersIn_eq_nil (r : ℕ) : answersIn o r = [] := by
  refine List.filterMap_eq_nil_iff.mpr fun e he => ?_
  cases e <;> first | rfl | cases ho _ he

end Lists

section Step

variable [AddCommMonoid Val] [DecidableEq Val] {cfg : BspConfig} {gP gQ t : ℕ}
  {s s' : BspSystem Val} {out o : List (BspEvent Val)} {tag : Option BspTag}

/-- A move that shows nothing of pulls leaves what belongs to them alone. -/
theorem BspMove.quiet {m m' : PSBspModel Val} {mutex mutex' : Option ℕ} {w w' : BspThread Val}
    (h : BspMove cfg t m mutex w tag m' mutex' w' o) (ho : ∀ e ∈ o, e.ofPull = false) :
    (mutex' = mutex ∧ m'.processCacheKeys = m.processCacheKeys ∧ m'.pullKeys = m.pullKeys ∧
      m'.pullVals = m.pullVals ∧ m'.pullBarrier = m.pullBarrier) ∧
    (∀ keys, w'.phase = .answering keys ↔ w.phase = .answering keys) ∧
    ∀ keys, w'.phase.keys = some keys → w.phase.keys = some keys := by
  refine ⟨?_, ?_, ?_⟩
  · cases h <;> first | exact ⟨rfl, rfl, rfl, rfl, rfl⟩ | cases ho _ (List.mem_cons_self ..)
  · cases h with
    | leavePush => split <;> simp
    | arrivePush hphase => rcases hphase with ⟨rfl, -⟩ | ⟨_, rfl⟩ <;> simp
    | stirPush hphase => rcases hphase with ⟨rfl, -⟩ | ⟨_, rfl⟩ <;> simp
    | _ => first | (simp; done) | cases ho _ (List.mem_cons_self ..)
  · cases h with
    | leavePush =>
        split
        · exact fun _ => id
        · exact fun _ => id
    | arrivePush hphase => rcases hphase with ⟨rfl, -⟩ | ⟨_, rfl⟩ <;> exact fun _ => id
    | stirPush hphase => rcases hphase with ⟨rfl, -⟩ | ⟨_, rfl⟩ <;> exact fun _ => id
    | _ => first | exact fun _ => id | cases ho _ (List.mem_cons_self ..)

/-- A thread in the loop goes on with it. -/
theorem BspKeys.reading (h : BspKeys cfg gP out s) (hrounds : BspRounds cfg gP gQ s)
    (ht : t < cfg.numThreads)
    (hmove : BspMove cfg t s.model s.pullMutex (s.threads t) tag s'.model s'.pullMutex
      (s'.threads t) o) (ho : ∀ e ∈ o, e.ofPull = false) (keys todo : List ℕ) (i : ℕ)
    (vals : List Val) (hphase : (s'.threads t).phase = .reading keys todo i vals) :
    Reading s.model s.pullMutex keys todo i vals := by
  have hreaders := h.readers t ht
  have hwanted := h.wanted t ht
  have hmet := hrounds.metPull t ht
  generalize s.threads t = w at *
  generalize s'.threads t = w' at *
  generalize s'.model = m' at hmove
  generalize s'.pullMutex = mutex' at hmove
  cases hmove with
  | enter hfree hfull =>
      obtain ⟨rfl, rfl, rfl, rfl⟩ := BspPhase.reading.inj hphase
      refine ⟨hfree, fun k hk => ?_, [], rfl, .nil⟩
      obtain ⟨-, hkeys, hmem⟩ := hwanted _ rfl
      rw [h.pullKeys hfull, List.drop_zero, mem_roundKeys]
      exact ⟨hkeys k hk, List.mem_flatMap.mpr ⟨_, hmem, hk⟩⟩
  | skip hget hne =>
      obtain ⟨rfl, rfl, rfl, rfl⟩ := BspPhase.reading.inj hphase
      have hpull : s.model.pullKeys.Pairwise (· < ·) := by
        rw [h.pullKeys (hmet trivial)]
        exact pairwise_roundKeys cfg out gP
      exact (hreaders _ _ _ _ rfl).skip (hwanted _ rfl).1 hpull hget hne
  | take hget hval =>
      obtain ⟨rfl, rfl, rfl, rfl⟩ := BspPhase.reading.inj hphase
      exact (hreaders _ _ _ _ rfl).take hget hval
  | answer => cases ho _ (List.mem_cons_self ..)
  | leavePush =>
      simp only at hphase
      split at hphase <;> cases hphase
  | arrivePush hphase' => rcases hphase' with ⟨rfl, -⟩ | ⟨_, rfl⟩ <;> cases hphase
  | stirPush hphase' => rcases hphase' with ⟨rfl, -⟩ | ⟨_, rfl⟩ <;> cases hphase
  | _ => cases hphase

/-- A step that shows nothing of pulls. -/
theorem BspKeys.step_quiet (h : BspKeys cfg gP out s) (hrounds : BspRounds cfg gP gQ s)
    (ht : t < cfg.numThreads)
    (hmove : BspMove cfg t s.model s.pullMutex (s.threads t) tag s'.model s'.pullMutex
      (s'.threads t) o)
    (hothers : ∀ v ≠ t, (s'.threads v).settled = (s.threads v).settled)
    (ho : ∀ e ∈ o, e.ofPull = false) : BspKeys cfg gP (out ++ o) s' := by
  obtain ⟨⟨hmutex, hmarks, hpullKeys, hpullVals, hbarrier⟩, hanswering, hkeys⟩ := hmove.quiet ho
  refine h.quiet ⟨hmutex, hmarks, hpullKeys, hpullVals, hbarrier, asksIn_eq_nil ho,
    pullsSent_eq_nil ho, answersIn_eq_nil ho, fun v r keys vals hmem => ?_⟩ hothers hanswering hkeys
    fun _ => h.reading hrounds ht hmove ho
  cases ho _ hmem

/-- **A step keeps the invariant of pulls.** -/
theorem bspKeys_step (h : BspKeys cfg gP out s) (hrounds : BspRounds cfg gP gQ s)
    (hhistory : BspHistory cfg gP gQ out s) (ht : t < cfg.numThreads)
    (hmove : BspMove cfg t s.model s.pullMutex (s.threads t) tag s'.model s'.pullMutex
      (s'.threads t) o)
    (hothers : ∀ v ≠ t, (s'.threads v).settled = (s.threads v).settled)
    (hsorted : ∀ r keys, .asked t r keys ∈ o → keys.Pairwise (· ≤ ·)) :
    BspKeys cfg (gP + (resetsPull cfg s tag).toNat) (out ++ o) s' := by
  have hturn := hrounds.pull_turn ht hmove
  have hsame : tag ≠ some .leavePull → gP + (resetsPull cfg s tag).toNat = gP := by
    intro hne
    simp [resetsPull, hne]
  have hmove' := hmove
  generalize hw : s.threads t = w at hmove
  generalize hw' : s'.threads t = w' at hmove
  generalize hmodel : s'.model = m' at hmove
  generalize hmutex : s'.pullMutex = mutex' at hmove
  cases hmove with
  | ask hpq hkeys =>
      subst hpq
      rw [hsame (by simp)]
      exact h.ask hrounds ht hw hkeys (hsorted _ _ (List.mem_singleton_self _)) hmodel hmutex hw'
        hothers
  | arriveLast hfree hlast =>
      rw [hsame (by simp)]
      exact h.arriveLast hrounds hhistory.pulls ht hw hfree hlast hmodel hmutex hw' hothers
  | arrive hfree hmore =>
      rw [hsame (by simp)]
      have hlt := (hrounds.pull.arrive ht (hturn.1 rfl)).2
      exact h.arrive hrounds ht hw (lt_of_le_of_ne hlt hmore) hmodel hmutex hw' hothers
  | answer hlen =>
      rw [hsame (by simp)]
      exact h.servers hrounds ht hw hlen hmodel hmutex hw' hothers
  | leavePull hfree =>
      obtain ⟨hgP, hfull⟩ := hturn.2 rfl
      rw [BspSystem.count, hw] at hgP
      by_cases hlast : s.model.pullBarrier.lastToLeave cfg.numThreads = true
      · rw [if_pos hlast]
        have hnext : (resetsPull cfg s (some .leavePull)).toNat = 1 := by simp [resetsPull, hlast]
        rw [hnext]
        exact h.leaveLast hrounds hhistory ht hfull hw hgP.symm hlast hmodel hmutex hw' hothers
      · rw [if_neg hlast]
        rw [Bool.not_eq_true] at hlast
        have hnext : (resetsPull cfg s (some .leavePull)).toNat = 0 := by simp [resetsPull, hlast]
        rw [hnext]
        exact h.leave ht hfull hw hgP.symm hlast hmodel hmutex hw' hothers
  | leavePush =>
      rw [hsame (by simp)]
      refine h.step_quiet hrounds ht hmove' hothers fun e he => ?_
      split at he
      · obtain rfl := List.mem_singleton.mp he
        rfl
      · cases he
  | _ =>
      rw [hsame (by simp)]
      exact h.step_quiet hrounds ht hmove' hothers (by simp [BspEvent.ofPull])

end Step

end FlexPS.ML
