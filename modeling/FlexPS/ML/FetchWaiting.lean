import FlexPS.ML.FetchProtocol

/-!
# Waiting for a fetch

A thread that waits on the condition variable waits for the clock in the front of a list of
`fetch_mgr_`.  Somebody has to take that clock out again: a fetch that is under way and covers
it, or a thread that still asks for it and will fetch for it when it is woken.  A fetch outside
the fetch manager raises the clock of a chunk without erasing the clocks that it covers, so a
thread that asked for one of them leaves without it.

## Main definitions

* `CachePhase.Erases`, `CachePhase.Requests` — who takes a clock out of its list.
* `NoOrphan` — nobody waits for a clock that nobody takes out.
* `CacheSystem.Quiet` — the next step of a thread strands no clock.
* `no_orphaned_wait` — nobody is stranded in runs of quiet steps.
* `no_orphaned_wait_fails` — a run of three threads in which somebody is.
-/

namespace FlexPS.ML

open KVStore Lib ModelWithCM

variable {Val : Type} {table : RangeTable}

/-! ## Who takes a clock out of its list -/

namespace CachePhase

/-- The chunks that the thread asks the fetch manager for and has not taken. -/
def pending : CachePhase Val → List ℕ
  | entering _ toFetch | blocked _ toFetch => toFetch
  | evaluating _ todo _ wait => todo ++ wait
  | fetching _ _ wait | storing _ _ _ _ wait => wait
  | _ => []

/-- The thread stores a managed fetch of the chunk, and will erase the clock after it. -/
def Stores (id : ℕ) (clock : ℤ) : CachePhase Val → Prop
  | storing c delivered _ real _ => c.managed = true ∧ id ∈ real ∧ clock ≤ delivered
  | _ => False

/-- A managed fetch of the chunk is under way that will erase the clock: it asks for that clock
or a larger one, or such a one has been delivered. -/
def Erases (id : ℕ) (clock : ℤ) : CachePhase Val → Prop
  | fetching c real _ => c.managed = true ∧ id ∈ real ∧ clock ≤ c.minClock
  | storing c delivered _ real _ => c.managed = true ∧ id ∈ real ∧ clock ≤ delivered
  | _ => False

/-- The thread asks for the chunk with the clock and has not finished. -/
def Requests (id : ℕ) (clock : ℤ) (phase : CachePhase Val) : Prop :=
  (id ∈ phase.pending ∨ id ∈ phase.taken) ∧ phase.minClock = clock

@[simp] theorem pending_notified (phase : CachePhase Val) :
    phase.notified.pending = phase.pending := by
  cases phase <;> rfl

@[simp] theorem stores_notified {id : ℕ} {clock : ℤ} (phase : CachePhase Val) :
    phase.notified.Stores id clock ↔ phase.Stores id clock := by
  cases phase <;> rfl

@[simp] theorem evaluates_notified (phase : CachePhase Val) :
    phase.notified.evaluates = phase.evaluates := by
  cases phase <;> rfl

theorem Stores.erases {id : ℕ} {clock : ℤ} {phase : CachePhase Val}
    (h : phase.Stores id clock) : phase.Erases id clock := by
  cases phase with
  | storing c delivered todo real wait => exact h
  | _ => cases h

end CachePhase

/-- Nobody waits for a clock that nobody takes out of its list. -/
def NoOrphan (s : CacheSystem Val) : Prop :=
  ∀ t c toFetch, s.threads t = .blocked c toFetch → ∀ id ∈ toFetch,
    ∃ front rest, s.model.fetchMgr id = front :: rest ∧
      ((∃ t', (s.threads t').Erases id front.1) ∨ ∃ t', (s.threads t').Requests id front.1)

/-! ## One move -/

section Move

variable {t : ℕ} {m m' : ChunkBasedPSModel Val} {phase phase' : CachePhase Val}
  {history o : List (CacheEvent Val)}

private theorem pending_nextRound {c : CacheCall} {toFetch : List ℕ}
    (h : CachePhase.nextRound table c toFetch = some phase) {id : ℕ} (hid : id ∈ toFetch) :
    id ∈ phase.pending ∧ phase.minClock = c.minClock := by
  unfold CachePhase.nextRound at h
  rw [if_neg (List.ne_nil_of_mem hid)] at h
  obtain rfl := Option.some.inj h
  exact ⟨hid, rfl⟩

/-- What a thread asks for it keeps asking for, until it takes it or finds it fresh. -/
theorem Move.pending (h : Move table t m phase m' phase' o)
    (hinc : ∀ id, (m.fetchMgr id).Increasing) (hsound : phase.Sound table m history) {id : ℕ}
    (hid : id ∈ phase.pending) :
    (id ∈ phase'.pending ∧ phase'.minClock = phase.minClock) ∨
      phase.minClock ≤ m.chunkClocks id ∨ (phase.minClock, true) ∈ m'.fetchMgr id := by
  cases h with
  | enter => exact .inl ⟨List.mem_append_left _ hid, rfl⟩
  | @take c id' todo real wait hold hvisit =>
      simp only [CachePhase.pending, List.cons_append, List.mem_cons] at hid
      rcases hid with rfl | hid
      · have hspec := @ClockList.visit_spec c.minClock _ (hinc id)
        rw [hvisit] at hspec
        right; right
        simpa [ChunkBasedPSModel.visit, CachePhase.minClock] using (hspec.taken rfl).1
      · exact .inl ⟨hid, rfl⟩
  | await hold hvisit =>
      left
      refine ⟨?_, rfl⟩
      simp only [CachePhase.pending, List.cons_append, List.mem_cons, List.mem_append,
        List.not_mem_nil] at hid ⊢
      tauto
  | drop hfresh =>
      simp only [CachePhase.pending, List.cons_append, List.mem_cons] at hid
      rcases hid with rfl | hid
      · exact .inr (.inl hfresh)
      · exact .inl ⟨hid, rfl⟩
  | @decide c real wait phase hphase =>
      simp only [CachePhase.pending, List.nil_append] at hid
      unfold CachePhase.decided at hphase
      rw [if_neg (List.ne_nil_of_mem hid)] at hphase
      split at hphase
      · obtain rfl := Option.some.inj hphase
        exact .inl ⟨hid, rfl⟩
      · obtain rfl := Option.some.inj hphase
        exact .inl ⟨hid, rfl⟩
  | wake => exact .inl ⟨hid, rfl⟩
  | deliver => exact .inl ⟨hid, rfl⟩
  | store => exact .inl ⟨hid, rfl⟩
  | abort hclock => exact absurd hsound.2.2.1 (not_le.mpr hclock)
  | finish hmanaged hclock hphase => exact .inl (pending_nextRound hphase hid)
  | stored hdirect hphase =>
      simp only [CachePhase.pending, hsound.2.1 hdirect] at hid
      cases hid
  | _ => cases hid

/-- What a thread has taken stays taken until all clocks up to it are erased. -/
theorem Move.keeps_taken (h : Move table t m phase m' phase' o)
    (hinc : ∀ id, (m.fetchMgr id).Increasing) (hsound : phase.Sound table m history) {id : ℕ}
    (hid : id ∈ phase.taken) :
    (id ∈ phase'.taken ∧ phase'.minClock = phase.minClock) ∨
      ∀ x ∈ m'.fetchMgr id, phase.minClock < x.1 := by
  cases h with
  | take => exact .inl ⟨List.mem_append_left _ hid, rfl⟩
  | @decide c real wait phase hphase =>
      have hreal : id ∈ real := hid
      unfold CachePhase.decided at hphase
      rw [if_neg (List.ne_nil_of_mem hreal)] at hphase
      obtain rfl := Option.some.inj hphase
      exact .inl ⟨by rwa [CachePhase.taken, if_pos hsound.1], rfl⟩
  | abort hclock => exact absurd hsound.2.2.1 (not_le.mpr hclock)
  | finish hmanaged hclock hphase =>
      rw [CachePhase.taken, if_pos hmanaged] at hid
      right
      intro x hx
      exact hclock.trans_lt ((ChunkBasedPSModel.mem_eraseFetched (hinc id) hid).mp hx).2
  | stored hdirect hphase =>
      rw [CachePhase.taken, if_neg (by simp [hdirect])] at hid
      cases hid
  | await => exact .inl ⟨hid, rfl⟩
  | drop => exact .inl ⟨hid, rfl⟩
  | deliver => exact .inl ⟨hid, rfl⟩
  | store => exact .inl ⟨hid, rfl⟩
  | _ => cases hid

/-- Who stores a fetch erases what it covers in the end. -/
theorem Move.keeps_stores (h : Move table t m phase m' phase' o)
    (hinc : ∀ id, (m.fetchMgr id).Increasing) (hsound : phase.Sound table m history) {id : ℕ}
    {clock : ℤ} (hstores : phase.Stores id clock) :
    phase'.Stores id clock ∨ ∀ x ∈ m'.fetchMgr id, clock < x.1 := by
  cases h with
  | store => exact .inl hstores
  | abort hclock => exact absurd hsound.2.2.1 (not_le.mpr hclock)
  | finish hmanaged hclock hphase =>
      right
      intro x hx
      have hlt := ((ChunkBasedPSModel.mem_eraseFetched (hinc id) hstores.2.1).mp hx).2
      exact hstores.2.2.trans_lt hlt
  | stored hdirect hphase => exact absurd hstores.1 (by simp [hdirect])
  | _ => cases hstores

/-- Where the clocks of the lists come from. -/
theorem Move.origin (h : Move table t m phase m' phase' o)
    (hinc : ∀ id, (m.fetchMgr id).Increasing) {id : ℕ} {x : ℤ} {b : Bool}
    (hx : (x, b) ∈ m'.fetchMgr id) :
    (x, b) ∈ m.fetchMgr id ∨
      (phase'.minClock = x ∧ (b = true → id ∈ phase'.taken) ∧
        (b = false → id ∈ phase'.pending ∧ m'.chunkClocks id < x)) := by
  -- the wait predicate changes one list
  have hvisited : ∀ {clock : ℤ} {id' : ℕ} {fetch : Bool},
      ((m.fetchMgr id').visit clock).2 = fetch → (x, b) ∈ (m.visit clock id').fetchMgr id →
      (x, b) ∈ m.fetchMgr id ∨ (id = id' ∧ x = clock ∧ b = fetch) := by
    intro clock id' fetch hfetch hx
    by_cases hid : id = id'
    · subst hid
      simp only [ChunkBasedPSModel.visit, Function.update_self] at hx
      rcases (ClockList.visit_spec (hinc id)).origin x b hx with hold | ⟨hx, hb⟩
      · exact .inl hold
      · exact .inr ⟨rfl, hx, hb.trans hfetch⟩
    · simp only [ChunkBasedPSModel.visit, Function.update_of_ne hid] at hx
      exact .inl hx
  cases h with
  | take hold hvisit =>
      rcases hvisited hvisit hx with hx | ⟨rfl, rfl, rfl⟩
      · exact .inl hx
      · exact .inr ⟨rfl, fun _ => by simp [CachePhase.taken], by simp⟩
  | await hold hvisit =>
      rcases hvisited hvisit hx with hx | ⟨rfl, rfl, rfl⟩
      · exact .inl hx
      · exact .inr ⟨rfl, by simp, fun _ => ⟨by simp [CachePhase.pending], hold⟩⟩
  | store =>
      rw [ChunkBasedPSModel.store_fetchMgr] at hx
      exact .inl hx
  | finish hmanaged hclock hphase =>
      simp only [ChunkBasedPSModel.eraseFetched] at hx
      split at hx
      · exact .inl ((ClockList.mem_eraseUpTo (hinc id)).mp hx).1
      · exact .inl hx
  | _ => exact .inl hx

/-- How far a move raises the clock of a chunk. -/
theorem Move.ahead (h : Move table t m phase m' phase' o)
    (hsound : phase.Sound table m history) {id : ℕ} {x : ℤ} (hx : m.chunkClocks id < x) :
    m'.chunkClocks id < x ∨ phase'.Stores id x ∨
      ∃ c clock p todo real wait, phase = .storing c clock (p :: todo) real wait ∧
        c.managed = false ∧ p.1 = id ∧ m.chunkClocks id < clock ∧ x ≤ clock := by
  cases h with
  | @store c clock p todo real wait =>
      by_cases hid : id = p.1
      · subst hid
        unfold ChunkBasedPSModel.store
        split
        · next hlt =>
            simp only [Function.update_self]
            rcases lt_or_ge clock x with hclock | hclock
            · exact .inl hclock
            · right
              cases hmanaged : c.managed with
              | true => exact .inl ⟨hmanaged, (hsound.2.2.2.2 p (by simp)).1, hclock⟩
              | false => exact .inr ⟨_, _, _, _, _, _, rfl, hmanaged, rfl, hlt, hclock⟩
        · exact .inl hx
      · left
        unfold ChunkBasedPSModel.store
        split
        · simpa only [Function.update_of_ne hid] using hx
        · exact hx
  | _ => exact .inl hx

end Move

/-! ## The invariant -/

/-- The chunks that a thread has found somebody else to wait for. -/
def CachePhase.parkedOn : CachePhase Val → List ℕ
  | evaluating _ _ _ wait => wait
  | blocked _ toFetch => toFetch
  | _ => []

section Move

variable {t : ℕ} {m m' : ChunkBasedPSModel Val} {phase phase' : CachePhase Val}
  {o : List (CacheEvent Val)}

private theorem visit_ne_nil {clock : ℤ} (clocks : ClockList) : (clocks.visit clock).1 ≠ [] := by
  cases clocks with
  | nil => simp [ClockList.visit]
  | cons e rest =>
      simp only [ClockList.visit]
      split
      · split <;> simp
      · split
        · next hlt =>
            rw [ClockList.insertClock_cons_of_lt hlt]
            simp
        · simp

/-- A list is emptied only when a fetch is finished. -/
theorem Move.nonempty (h : Move table t m phase m' phase' o) (hnot : ¬ phase.finishes) {id : ℕ}
    (hid : m.fetchMgr id ≠ []) : m'.fetchMgr id ≠ [] := by
  have hvisit : ∀ (clock : ℤ) (id' : ℕ), (m.visit clock id').fetchMgr id ≠ [] := by
    intro clock id'
    by_cases heq : id = id'
    · subst heq
      simpa [ChunkBasedPSModel.visit] using visit_ne_nil _
    · simpa [ChunkBasedPSModel.visit, Function.update_of_ne heq] using hid
  cases h with
  | take => exact hvisit _ _
  | await => exact hvisit _ _
  | store => rwa [ChunkBasedPSModel.store_fetchMgr]
  | finish hmanaged hclock hphase => exact absurd ⟨hmanaged, hclock⟩ hnot
  | _ => exact hid

/-- A thread parks on lists that are not empty. -/
theorem Move.parked (h : Move table t m phase m' phase' o) {id : ℕ}
    (hid : id ∈ phase'.parkedOn) :
    m'.fetchMgr id ≠ [] ∨ (¬ phase.finishes ∧ id ∈ phase.parkedOn) := by
  have hout : ∀ {c : CacheCall} {phase : CachePhase Val},
      CachePhase.handOut table c = some phase → phase.parkedOn = [] := by
    intro c phase h
    rcases handOut_cases h with ⟨_, rfl⟩ | ⟨_, rfl⟩ <;> rfl
  have hround : ∀ {c : CacheCall} {toFetch : List ℕ} {phase : CachePhase Val},
      CachePhase.nextRound table c toFetch = some phase → phase.parkedOn = [] := by
    intro c toFetch phase h
    unfold CachePhase.nextRound at h
    split at h
    · exact hout h
    · obtain rfl := Option.some.inj h
      rfl
  cases h with
  | take => exact .inr ⟨not_false, hid⟩
  | @await c id' todo real wait hold hvisit =>
      rcases List.mem_append.mp hid with hid | hid
      · exact .inr ⟨not_false, hid⟩
      · left
        obtain rfl := List.mem_singleton.mp hid
        simpa [ChunkBasedPSModel.visit] using visit_ne_nil _
  | drop => exact .inr ⟨not_false, hid⟩
  | collected hphase =>
      unfold CachePhase.collected at hphase
      split at hphase
      · rw [hround hphase] at hid
        cases hid
      · obtain rfl := Option.some.inj hphase
        cases hid
  | decide hphase =>
      unfold CachePhase.decided at hphase
      split at hphase
      · split at hphase
        · rw [hout hphase] at hid
          cases hid
        · obtain rfl := Option.some.inj hphase
          exact .inr ⟨not_false, hid⟩
      · obtain rfl := Option.some.inj hphase
        cases hid
  | finish hmanaged hclock hphase =>
      rw [hround hphase] at hid
      cases hid
  | stored hdirect hphase =>
      rw [hout hphase] at hid
      cases hid
  | _ => cases hid

end Move

/-- Every clock in the lists has somebody who takes it out. -/
structure WaitInv (s : CacheSystem Val) : Prop where
  /-- Who is inside the wait predicate holds the lock. -/
  lock : ∀ t, (s.threads t).evaluates = true → s.lock = some t
  marked : ∀ id clock, (clock, true) ∈ s.model.fetchMgr id →
    ∃ t, id ∈ (s.threads t).taken ∧ (s.threads t).minClock = clock
  wanted : ∀ id clock, (clock, false) ∈ s.model.fetchMgr id →
    (∃ t, id ∈ (s.threads t).pending ∧ (s.threads t).minClock = clock) ∨
      ∃ t, (s.threads t).Stores id clock
  /-- An unmarked clock is still ahead of the chunk, or about to be erased. -/
  ahead : ∀ id clock, (clock, false) ∈ s.model.fetchMgr id →
    s.model.chunkClocks id < clock ∨ ∃ t, (s.threads t).Stores id clock
  parked : ∀ t, ∀ id ∈ (s.threads t).parkedOn, s.model.fetchMgr id ≠ []

theorem waitInv_new : WaitInv (CacheSystem.new : CacheSystem Val) := by
  constructor <;> simp [CacheSystem.new, ChunkBasedPSModel.new, CachePhase.evaluates,
    CachePhase.parkedOn]

/-- The next step of the thread strands no clock: a fetch outside the fetch manager raises the
clock of a chunk only past unmarked clocks that are about to be erased anyway. -/
def CacheSystem.Quiet (s : CacheSystem Val) (t : ℕ) : Prop :=
  match s.threads t with
  | .storing c clock (p :: _) _ _ =>
      c.managed = false → s.model.chunkClocks p.1 < clock →
        ∀ x ≤ clock, (x, false) ∈ s.model.fetchMgr p.1 → ∃ t', (s.threads t').Stores p.1 x
  | _ => True

section Step

variable {s s' : CacheSystem Val} {history o : List (CacheEvent Val)} {t : ℕ}

/-- The others ask for, store and evaluate what they did. -/
theorem StepOf.other_waiting (h : StepOf table t s s' o) {t' : ℕ} (hne : t' ≠ t) :
    (s'.threads t').pending = (s.threads t').pending ∧
      (∀ id clock, (s'.threads t').Stores id clock ↔ (s.threads t').Stores id clock) ∧
      (s'.threads t').evaluates = (s.threads t').evaluates := by
  rcases h.others with ⟨-, hsame⟩ | ⟨-, hnotified⟩
  · rw [hsame t' hne]
    exact ⟨rfl, fun _ _ => .rfl, rfl⟩
  · rw [hnotified t' hne]
    simp

theorem LockMove.cases {lock lock' : Option ℕ} {inside inside' : Bool}
    (h : LockMove t lock inside lock' inside') :
    (lock' = lock ∧ inside' = inside) ∨ (lock = none ∧ lock' = some t) ∨
      (inside = true ∧ inside' = false ∧ lock' = none) := by
  cases h with
  | keep => exact .inl ⟨rfl, rfl⟩
  | acquire => exact .inr (.inl ⟨rfl, rfl⟩)
  | release => exact .inr (.inr ⟨rfl, rfl, rfl⟩)

theorem StepOf.lock_step (h : StepOf table t s s' o)
    (hlock : ∀ t, (s.threads t).evaluates = true → s.lock = some t) (t' : ℕ)
    (ht' : (s'.threads t').evaluates = true) : s'.lock = some t' := by
  by_cases hne : t' = t
  · subst hne
    rcases h.lock.cases with ⟨hsame, hinside⟩ | ⟨-, hlocked⟩ | ⟨-, hinside, -⟩
    · rw [hsame]
      exact hlock t' (hinside ▸ ht')
    · exact hlocked
    · rw [hinside] at ht'
      cases ht'
  · rw [(h.other_waiting hne).2.2] at ht'
    have hheld := hlock t' ht'
    rcases h.lock.cases with ⟨hsame, -⟩ | ⟨hfree, -⟩ | ⟨hinside, -, -⟩
    · rw [hsame, hheld]
    · rw [hfree] at hheld
      cases hheld
    · rw [hlock t hinside] at hheld
      exact absurd (Option.some.inj hheld).symm hne

/-- Who stores a fetch that covers a clock still does, unless the clock is erased. -/
theorem StepOf.keeps_stores (h : StepOf table t s s' o) (hinv : CacheInv table history s) {id : ℕ}
    {clock : ℤ} {b : Bool} (hmem : (clock, b) ∈ s'.model.fetchMgr id)
    (hstores : ∃ t, (s.threads t).Stores id clock) : ∃ t, (s'.threads t).Stores id clock := by
  obtain ⟨t', ht'⟩ := hstores
  by_cases hne : t' = t
  · subst hne
    rcases h.move.keeps_stores hinv.increasing (hinv.sound t') ht' with hkept | herased
    · exact ⟨t', hkept⟩
    · exact absurd (herased _ hmem) (lt_irrefl clock)
  · exact ⟨t', ((h.other_waiting hne).2.1 id clock).mpr ht'⟩

theorem StepOf.marked_step (h : StepOf table t s s' o) (hinv : CacheInv table history s)
    (hwait : WaitInv s) {id : ℕ} {clock : ℤ} (hmem : (clock, true) ∈ s'.model.fetchMgr id) :
    ∃ t, id ∈ (s'.threads t).taken ∧ (s'.threads t).minClock = clock := by
  rcases h.move.origin hinv.increasing hmem with hold | ⟨hclock, htaken, -⟩
  · obtain ⟨t', htaken, hclock⟩ := hwait.marked id clock hold
    by_cases hne : t' = t
    · subst hne
      rcases h.move.keeps_taken hinv.increasing (hinv.sound t') htaken with hkept | herased
      · exact ⟨t', hkept.1, hkept.2.trans hclock⟩
      · exact absurd (herased _ hmem) (by simp [hclock])
    · refine ⟨t', ?_, ?_⟩
      · rwa [(h.other hne).1]
      · rwa [(h.other hne).2]
  · exact ⟨t, htaken rfl, hclock⟩

theorem StepOf.ahead_step (h : StepOf table t s s' o) (hinv : CacheInv table history s)
    (hwait : WaitInv s) (hquiet : s.Quiet t) {id : ℕ} {clock : ℤ}
    (hmem : (clock, false) ∈ s'.model.fetchMgr id) :
    s'.model.chunkClocks id < clock ∨ ∃ t, (s'.threads t).Stores id clock := by
  rcases h.move.origin hinv.increasing hmem with hold | ⟨-, -, hpending⟩
  · rcases hwait.ahead id clock hold with hlt | hstores
    · rcases h.move.ahead (hinv.sound t) hlt with hlt | hstores | hdirect
      · exact .inl hlt
      · exact .inr ⟨t, hstores⟩
      · obtain ⟨c, delivered, p, todo, real, wait, hphase, hmanaged, rfl, hraise, hle⟩ := hdirect
        rw [CacheSystem.Quiet, hphase] at hquiet
        exact .inr (h.keeps_stores hinv hmem (hquiet hmanaged hraise clock hle hold))
    · exact .inr (h.keeps_stores hinv hmem hstores)
  · exact .inl (hpending rfl).2

theorem StepOf.wanted_step (h : StepOf table t s s' o) (hinv : CacheInv table history s)
    (hwait : WaitInv s) {id : ℕ} {clock : ℤ} (hmem : (clock, false) ∈ s'.model.fetchMgr id) :
    (∃ t, id ∈ (s'.threads t).pending ∧ (s'.threads t).minClock = clock) ∨
      ∃ t, (s'.threads t).Stores id clock := by
  rcases h.move.origin hinv.increasing hmem with hold | ⟨hclock, -, hpending⟩
  · rcases hwait.wanted id clock hold with ⟨t', hpending, hclock⟩ | hstores
    · by_cases hne : t' = t
      · subst hne
        have hinc' := h.move.increasing hinv.increasing id
        rcases h.move.pending hinv.increasing (hinv.sound t') hpending with hkept | hfresh | hmarked
        · exact .inl ⟨t', hkept.1, hkept.2.trans hclock⟩
        · -- the clock was left behind, so somebody is about to erase it
          rw [hclock] at hfresh
          rcases hwait.ahead id clock hold with hlt | hstores
          · exact absurd hlt (not_lt.mpr hfresh)
          · exact .inr (h.keeps_stores hinv hmem hstores)
        · rw [hclock] at hmarked
          cases hinc'.eq_of_mem hmem hmarked rfl
      · refine .inl ⟨t', ?_, ?_⟩
        · rwa [(h.other_waiting hne).1]
        · rwa [(h.other hne).2]
    · exact .inr (h.keeps_stores hinv hmem hstores)
  · exact .inl ⟨t, (hpending rfl).1, hclock⟩

theorem StepOf.parked_step (h : StepOf table t s s' o) (hwait : WaitInv s) (t' : ℕ)
    {id : ℕ} (hid : id ∈ (s'.threads t').parkedOn) : s'.model.fetchMgr id ≠ [] := by
  by_cases hne : t' = t
  · subst hne
    rcases h.move.parked hid with hnew | ⟨hnot, hid⟩
    · exact hnew
    · exact h.move.nonempty hnot (hwait.parked t' id hid)
  · rcases h.others with ⟨hnot, hsame⟩ | ⟨hfree, hnotified⟩
    · rw [hsame t' hne] at hid
      exact h.move.nonempty hnot (hwait.parked t' id hid)
    · -- the lock is free, so nobody is inside the wait predicate
      rw [hnotified t' hne] at hid
      have hheld := hwait.lock t'
      cases hphase : s.threads t' with
      | evaluating c todo real wait =>
          rw [hphase, hfree] at hheld
          cases hheld rfl
      | _ =>
          rw [hphase] at hid
          cases hid

/-- **A quiet step keeps somebody for every clock.** -/
theorem waitInv_step (h : StepOf table t s s' o) (hinv : CacheInv table history s)
    (hwait : WaitInv s) (hquiet : s.Quiet t) : WaitInv s' where
  lock := h.lock_step hwait.lock
  marked _ _ := h.marked_step hinv hwait
  wanted _ _ := h.wanted_step hinv hwait
  ahead _ _ := h.ahead_step hinv hwait hquiet
  parked t' _ := h.parked_step hwait t'

/-- Who has taken a chunk is fetching it, or about to. -/
theorem erases_of_taken {m : ChunkBasedPSModel Val} {phase : CachePhase Val} {id : ℕ}
    (hsound : phase.Sound table m history) (hid : id ∈ phase.taken) :
    phase.Erases id phase.minClock ∨ phase.Requests id phase.minClock := by
  cases phase with
  | evaluating c todo real wait => exact .inr ⟨.inr hid, rfl⟩
  | fetching c real wait =>
      simp only [CachePhase.taken] at hid
      split at hid
      · next hmanaged => exact .inl ⟨hmanaged, hid, le_rfl⟩
      · cases hid
  | storing c clock todo real wait =>
      simp only [CachePhase.taken] at hid
      split at hid
      · next hmanaged => exact .inl ⟨hmanaged, hid, hsound.2.2.1⟩
      · cases hid
  | _ => cases hid

theorem noOrphan_of_inv (hinv : CacheInv table history s) (hwait : WaitInv s) : NoOrphan s := by
  intro t c toFetch hphase id hid
  have hne := hwait.parked t id (by rwa [hphase])
  obtain ⟨⟨clock, mark⟩, rest, hlist⟩ := List.exists_cons_of_ne_nil hne
  have hmem : (clock, mark) ∈ s.model.fetchMgr id := by
    rw [hlist]
    exact List.mem_cons_self ..
  refine ⟨(clock, mark), rest, hlist, ?_⟩
  cases mark with
  | true =>
      obtain ⟨t', htaken, rfl⟩ := hwait.marked id clock hmem
      rcases erases_of_taken (hinv.sound t') htaken with herases | hrequests
      · exact .inl ⟨t', herases⟩
      · exact .inr ⟨t', hrequests⟩
  | false =>
      rcases hwait.wanted id clock hmem with ⟨t', hpending, hclock⟩ | ⟨t', hstores⟩
      · exact .inr ⟨t', .inl hpending, hclock⟩
      · exact .inl ⟨t', hstores.erases⟩

end Step

/-- **No thread waits on an orphaned fetch** in a run whose deliveries are as new as what was
asked for, as long as no fetch outside the fetch manager strands a clock. -/
theorem no_orphaned_wait {is : List (CacheInput Val)} {s : CacheSystem Val}
    {out : List (CacheEvent Val)}
    (hsteps : Along (cacheStep table) (fun _ s i => i.Honest s ∧ s.Quiet i.thread) [] .new is)
    (h : run (cacheStep table) .new is = some (s, out)) : NoOrphan s := by
  have hrun := run_along (I := fun out s => CacheInv table out s ∧ WaitInv s) ?_
    ⟨cacheInv_new, waitInv_new⟩ hsteps h
  · exact noOrphan_of_inv hrun.1 hrun.2
  · intro out s i s' o hinv hi hstep
    have hof := cacheStep_stepOf hstep
    refine ⟨cacheInv_step hinv.1 hof fun clock chunks => honest_step hstep hi.1, ?_⟩
    exact waitInv_step hof hinv.1 hinv.2 hi.2

/-- In the shared fetch the second thread waits for the first. -/
theorem no_orphaned_wait_sharedFetch : ∃ s out,
    run (cacheStep (setMaxKeyAndChunkSize 1 4 2)) .new (sharedFetch.take 12) = some (s, out) ∧
    s.threads 1 = .blocked (.pullChunksWithMinClock [0] 1) [0] ∧ NoOrphan s := by
  have hrun : run (cacheStep (setMaxKeyAndChunkSize 1 4 2)) .new (sharedFetch.take 12) =
      some (_, []) := rfl
  have hsteps : Along (cacheStep (setMaxKeyAndChunkSize 1 4 2))
      (fun _ s i => i.Honest s ∧ s.Quiet i.thread) [] .new (sharedFetch.take 12) := by
    iterate 12 apply along_cons rfl ⟨trivial, trivial⟩
    trivial
  exact ⟨_, _, hrun, rfl, no_orphaned_wait hsteps hrun⟩

/-- Thread 0 fetches chunk 0 for clock 1, thread 1 waits for clock 2, and thread 2 fetches past
both outside the fetch manager.  Thread 1 then finds the chunk fresh and returns; nobody takes
clock 2 out, and thread 2 waits for it when it asks for clock 3. -/
def strandedClock : List (CacheInput ℕ) :=
  [.call 0 (.pullChunksWithMinClock [0] 1), .proceed 0, .proceed 0, .proceed 0, .proceed 0,
    .proceed 0,
    .call 1 (.pullChunksWithMinClock [0] 2), .proceed 1, .proceed 1, .proceed 1, .proceed 1,
    .proceed 1,
    .call 2 (.pullWithMinClock [0] 2), .proceed 2, .proceed 2, .deliver 2 2 [[5, 7]], .proceed 2,
    .proceed 2, .proceed 2, .proceed 2, .proceed 2,
    .deliver 0 1 [[3, 4]], .proceed 0, .proceed 0, .proceed 0, .proceed 0,
    .proceed 1, .proceed 1, .proceed 1, .proceed 1, .proceed 1,
    .call 2 (.pullChunksWithMinClock [0] 3), .proceed 2, .proceed 2, .proceed 2, .proceed 2,
    .proceed 2]

theorem no_orphaned_wait_fails :
    ¬ ∀ (is : List (CacheInput ℕ)) (s : CacheSystem ℕ) (out : List (CacheEvent ℕ)),
      Along (cacheStep (setMaxKeyAndChunkSize 1 4 2)) (fun _ s i => i.Honest s) [] .new is →
      run (cacheStep (setMaxKeyAndChunkSize 1 4 2)) .new is = some (s, out) → NoOrphan s := by
  intro hall
  have hhonest : Along (cacheStep (setMaxKeyAndChunkSize 1 4 2)) (fun _ s i => i.Honest s) []
      .new strandedClock := by
    iterate 15 apply along_cons rfl trivial
    apply along_cons rfl
    · exact (by decide : (2 : ℤ) ≤ 2)
    iterate 5 apply along_cons rfl trivial
    apply along_cons rfl
    · exact (by decide : (1 : ℤ) ≤ 1)
    iterate 15 apply along_cons rfl trivial
    trivial
  have hrun : ∃ s, run (cacheStep (setMaxKeyAndChunkSize 1 4 2)) .new strandedClock =
      some (s, [.delivered 2 2 [(0, [5, 7])], .returned 2 [0] 2 [5] (some 2),
        .delivered 0 1 [(0, [3, 4])], .returnedChunks 0 [0] 1 [(0, [5, 7], 2)],
        .returnedChunks 1 [0] 2 [(0, [5, 7], 2)]]) ∧
      s.model.fetchMgr 0 = [(2, false), (3, false)] ∧
      s.threads 2 = .blocked (.pullChunksWithMinClock [0] 3) [0] ∧
      ∀ t ≠ 2, s.threads t = .idle := by
    refine ⟨_, rfl, rfl, rfl, ?_⟩
    intro t ht
    rcases t with _ | _ | _ | t
    · rfl
    · rfl
    · exact absurd rfl ht
    · rfl
  obtain ⟨s, hrun, hlist, hblocked, hidle⟩ := hrun
  obtain ⟨front, rest, hfront, htaker⟩ :=
    hall _ s _ hhonest hrun 2 _ _ hblocked 0 (List.mem_cons_self ..)
  rw [hlist] at hfront
  obtain ⟨rfl, -⟩ := List.cons.inj hfront
  rcases htaker with ⟨t, ht⟩ | ⟨t, ht⟩
  · by_cases htwo : t = 2
    · rw [htwo, hblocked] at ht
      exact ht
    · rw [hidle t htwo] at ht
      exact ht
  · by_cases htwo : t = 2
    · rw [htwo, hblocked] at ht
      exact absurd ht.2 (by decide)
    · rw [hidle t htwo] at ht
      simp [CachePhase.Requests, CachePhase.pending, CachePhase.taken] at ht

end FlexPS.ML
