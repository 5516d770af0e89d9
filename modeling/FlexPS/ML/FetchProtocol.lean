import FlexPS.ML.ProcessCache
import FlexPS.Lib.Lockstep
import Mathlib.Data.List.SplitBy

/-!
# The fetch manager protocol

What holds in every state that threads can bring a process cache into, when the servers answer
every fetch with at least the clock that was asked for.

## Main definitions

* `Later` — how the shared data may change under a thread.
* `CachePhase.Sound` — what a thread can rely on in each phase.
* `CacheInv` — the invariant of the protocol.
* `fetch_protocol` — the lists of clocks increase, no fetch is under way twice, clocks grow, the
  chunks are the ones delivered with their clocks, and what is handed out is fresh enough.
-/

namespace FlexPS.ML

open KVStore Lib ModelWithCM

variable {Val : Type} {table : RangeTable}

/-! ## Phases -/

namespace CachePhase

/-- The clock asked for by the call. -/
def minClock : CachePhase Val → ℤ
  | idle | aborted => 0
  | collecting c _ _ | entering c _ | evaluating c _ _ _ | blocked c _ | fetching c _ _
  | storing c _ _ _ _ | copying c _ _ | reading c _ _ _ _ => c.minClock

/-- The chunks that the thread fetches for the fetch manager. -/
def taken : CachePhase Val → List ℕ
  | evaluating _ _ real _ => real
  | fetching c real _ => if c.managed then real else []
  | storing c _ _ real _ => if c.managed then real else []
  | _ => []

/-- The chunks of the managed fetch that the thread has under way. -/
def inFlight : CachePhase Val → List ℕ
  | fetching c real _ => if c.managed then real else []
  | storing c _ _ real _ => if c.managed then real else []
  | _ => []

theorem taken_of_inFlight {phase : CachePhase Val} {id : ℕ} (h : id ∈ phase.inFlight) :
    id ∈ phase.taken := by
  cases phase with
  | fetching c real wait => exact h
  | storing c clock todo real wait => exact h
  | _ => cases h

end CachePhase

/-- The chunk arrived in a fetch with the clock. -/
def Delivered (history : List (CacheEvent Val)) (clock : ℤ) (p : ℕ × List Val) : Prop :=
  ∃ t chunks, .delivered t clock chunks ∈ history ∧ p ∈ chunks

/-- The chunk is the one delivered with the clock, or as empty as at the start. -/
def Snapshot (history : List (CacheEvent Val)) (clock : ℤ) (p : ℕ × List Val) : Prop :=
  (clock = -1 ∧ p.2 = []) ∨ Delivered history clock p

theorem Delivered.append {history : List (CacheEvent Val)} {clock : ℤ} {p : ℕ × List Val}
    (h : Delivered history clock p) (o : List (CacheEvent Val)) :
    Delivered (history ++ o) clock p := by
  obtain ⟨t, chunks, hmem, hp⟩ := h
  exact ⟨t, chunks, List.mem_append_left _ hmem, hp⟩

theorem Snapshot.append {history : List (CacheEvent Val)} {clock : ℤ} {p : ℕ × List Val}
    (h : Snapshot history clock p) (o : List (CacheEvent Val)) :
    Snapshot (history ++ o) clock p :=
  h.imp id fun h => h.append o

namespace ChunkBasedPSModel

/-- Nobody else is to fetch the chunk for the clock: it is marked, or not needed any more. -/
def Held (m : ChunkBasedPSModel Val) (id : ℕ) (clock : ℤ) : Prop :=
  (clock, true) ∈ m.fetchMgr id ∨ clock ≤ m.chunkClocks id

/-- How the data may change under a thread: clocks grow, and what is held stays held. -/
structure Later (m m' : ChunkBasedPSModel Val) : Prop where
  clocks : ∀ id, m.chunkClocks id ≤ m'.chunkClocks id
  held : ∀ id clock, m.Held id clock → m'.Held id clock

theorem Later.refl (m : ChunkBasedPSModel Val) : Later m m := ⟨fun _ => le_rfl, fun _ _ h => h⟩

theorem le_chunkClocks_store (m : ChunkBasedPSModel Val) (clock : ℤ) (p : ℕ × List Val) (id : ℕ) :
    m.chunkClocks id ≤ (m.store clock p).chunkClocks id := by
  unfold store
  split
  · next hlt =>
      by_cases hid : id = p.1
      · subst hid
        simpa using hlt.le
      · simp [Function.update_of_ne hid]
  · exact le_rfl

/-- A stored chunk is at least as new as what was to be stored. -/
theorem le_store_chunkClocks (m : ChunkBasedPSModel Val) (clock : ℤ) (p : ℕ × List Val) :
    clock ≤ (m.store clock p).chunkClocks p.1 := by
  unfold store
  split
  · simp
  · next hge => exact not_lt.mp hge

@[simp] theorem store_fetchMgr (m : ChunkBasedPSModel Val) (clock : ℤ) (p : ℕ × List Val) :
    (m.store clock p).fetchMgr = m.fetchMgr := by
  unfold store
  split <;> rfl

theorem later_store (m : ChunkBasedPSModel Val) (clock : ℤ) (p : ℕ × List Val) :
    Later m (m.store clock p) := by
  refine ⟨m.le_chunkClocks_store clock p, fun id c h => ?_⟩
  rcases h with h | h
  · left
    rwa [store_fetchMgr]
  · exact .inr (h.trans (m.le_chunkClocks_store clock p id))

theorem later_visit {m : ChunkBasedPSModel Val} {id : ℕ} (h : (m.fetchMgr id).Increasing)
    (clock : ℤ) : Later m (m.visit clock id) := by
  refine ⟨fun _ => le_rfl, fun id' c hheld => ?_⟩
  rcases hheld with hmem | hle
  · left
    by_cases hid : id' = id
    · subst hid
      simpa [visit] using (ClockList.visit_spec h).marked c hmem
    · simpa [visit, Function.update_of_ne hid] using hmem
  · exact .inr hle

theorem mem_eraseFetched {m : ChunkBasedPSModel Val} {real : List ℕ} {clock : ℤ} {id : ℕ}
    (h : (m.fetchMgr id).Increasing) (hid : id ∈ real) {x : ℤ × Bool} :
    x ∈ (m.eraseFetched real clock).fetchMgr id ↔ x ∈ m.fetchMgr id ∧ clock < x.1 := by
  simp only [eraseFetched, if_pos hid]
  exact ClockList.mem_eraseUpTo h

/-- What a finished fetch erases is not needed any more. -/
theorem later_eraseFetched {m : ChunkBasedPSModel Val} {real : List ℕ} {clock : ℤ}
    (hinc : ∀ id, (m.fetchMgr id).Increasing) (hreal : ∀ id ∈ real, clock ≤ m.chunkClocks id) :
    Later m (m.eraseFetched real clock) := by
  refine ⟨fun _ => le_rfl, fun id c hheld => ?_⟩
  rcases hheld with hmem | hle
  · by_cases hid : id ∈ real
    · by_cases hc : c ≤ clock
      · exact .inr (hc.trans (hreal id hid))
      · left
        exact (mem_eraseFetched (hinc id) hid).mpr ⟨hmem, not_le.mp hc⟩
    · left
      simpa only [eraseFetched, if_neg hid] using hmem
  · exact .inr hle

/-- The lists keep increasing. -/
theorem increasing_visit {m : ChunkBasedPSModel Val} (h : ∀ id, (m.fetchMgr id).Increasing)
    (clock : ℤ) (id id' : ℕ) : ((m.visit clock id).fetchMgr id').Increasing := by
  by_cases hid : id' = id
  · subst hid
    simpa [visit] using (ClockList.visit_spec (h id')).increasing
  · simpa [visit, Function.update_of_ne hid] using h id'

theorem increasing_eraseFetched {m : ChunkBasedPSModel Val}
    (h : ∀ id, (m.fetchMgr id).Increasing) (real : List ℕ) (clock : ℤ) (id : ℕ) :
    ((m.eraseFetched real clock).fetchMgr id).Increasing := by
  simp only [eraseFetched]
  split
  · exact ClockList.increasing_eraseUpTo (h id)
  · exact h id

end ChunkBasedPSModel

/-! ## What a thread can rely on -/

/-- The value was read from a chunk that is fresh enough. -/
def FromChunk (history : List (CacheEvent Val)) (minClock : ℤ) (place : ℕ × ℕ) (v : Val) : Prop :=
  ∃ clock chunk, minClock ≤ clock ∧ Snapshot history clock (place.1, chunk) ∧
    chunk[place.2]? = some v

theorem FromChunk.append {history : List (CacheEvent Val)} {minClock : ℤ} {place : ℕ × ℕ} {v : Val}
    (h : FromChunk history minClock place v) (o : List (CacheEvent Val)) :
    FromChunk (history ++ o) minClock place v := by
  obtain ⟨clock, chunk, hle, hsnap, hv⟩ := h
  exact ⟨clock, chunk, hle, hsnap.append o, hv⟩

/-- The places of the keys of a call. -/
def CacheCall.places (table : RangeTable) : CacheCall → Option (List (ℕ × ℕ))
  | pullWithMinClock keys _ => keys.mapM (getLocation table)
  | pullChunksWithMinClock _ _ => none

namespace CachePhase

/-- The chunks of a call are in one of the lists, or fresh enough. -/
def Covers (table : RangeTable) (m : ChunkBasedPSModel Val) (c : CacheCall) (ids : List ℕ) :
    Prop :=
  ∀ id ∈ c.chunks table, id ∈ ids ∨ c.minClock ≤ m.chunkClocks id

/-- What a thread can rely on in each phase. -/
def Sound (table : RangeTable) (m : ChunkBasedPSModel Val) (history : List (CacheEvent Val)) :
    CachePhase Val → Prop
  | idle => True
  | aborted => False
  | collecting c todo toFetch => Covers table m c (todo ++ toFetch)
  | entering c toFetch | blocked c toFetch => c.managed ∧ Covers table m c toFetch
  | evaluating c todo real wait => c.managed ∧ Covers table m c (todo ++ real ++ wait)
  | fetching c real wait => Covers table m c (real ++ wait) ∧ (c.managed = false → wait = [])
  | storing c clock todo real wait =>
      Covers table m c (real ++ wait) ∧ (c.managed = false → wait = []) ∧ c.minClock ≤ clock ∧
        (∀ id ∈ real, id ∈ todo.map Prod.fst ∨ clock ≤ m.chunkClocks id) ∧
        (∀ p ∈ todo, p.1 ∈ real ∧ Delivered history clock p)
  | copying c todo copies =>
      c.managed ∧ copies.map Prod.fst ++ todo = c.chunks table ∧
        (∀ id ∈ todo, c.minClock ≤ m.chunkClocks id) ∧
        (∀ x ∈ copies, c.minClock ≤ x.2.2 ∧ Snapshot history x.2.2 (x.1, x.2.1))
  | reading c todo looked clock vals =>
      (∀ p ∈ todo.flatten, c.minClock ≤ m.chunkClocks p.1) ∧ (∀ x ∈ clock, c.minClock ≤ x) ∧
        ∃ done, c.places table = some (done ++ todo.flatten) ∧
          List.Forall₂ (FromChunk history c.minClock) done vals ∧
          (clock = none → looked = false ∧ done = [])

theorem Covers.later {m m' : ChunkBasedPSModel Val} {c : CacheCall} {ids : List ℕ}
    (h : Covers table m c ids) (hlater : m.Later m') : Covers table m' c ids := by
  intro id hid
  exact (h id hid).imp_right fun hle => hle.trans (hlater.clocks id)

theorem Covers.mono {m : ChunkBasedPSModel Val} {c : CacheCall} {ids ids' : List ℕ}
    (h : Covers table m c ids)
    (hsub : ∀ id ∈ ids, id ∈ ids' ∨ c.minClock ≤ m.chunkClocks id) : Covers table m c ids' := by
  intro id hid
  rcases h id hid with hmem | hle
  · exact hsub id hmem
  · exact .inr hle

/-- A thread keeps what it relies on while others work. -/
theorem Sound.later {m m' : ChunkBasedPSModel Val} {history : List (CacheEvent Val)}
    {phase : CachePhase Val} (h : Sound table m history phase) (hlater : m.Later m')
    (o : List (CacheEvent Val)) : Sound table m' (history ++ o) phase := by
  have hfresh : ∀ {id : ℕ} {x : ℤ}, x ≤ m.chunkClocks id → x ≤ m'.chunkClocks id :=
    fun hle => hle.trans (hlater.clocks _)
  cases phase with
  | idle => trivial
  | aborted => exact h
  | collecting c todo toFetch => exact Covers.later h hlater
  | entering c toFetch => exact ⟨h.1, h.2.later hlater⟩
  | blocked c toFetch => exact ⟨h.1, h.2.later hlater⟩
  | evaluating c todo real wait => exact ⟨h.1, h.2.later hlater⟩
  | fetching c real wait => exact ⟨h.1.later hlater, h.2⟩
  | storing c clock todo real wait =>
      obtain ⟨hcov, hwait, hle, hreal, htodo⟩ := h
      refine ⟨hcov.later hlater, hwait, hle, fun id hid => (hreal id hid).imp_right hfresh, ?_⟩
      exact fun p hp => ⟨(htodo p hp).1, (htodo p hp).2.append o⟩
  | copying c todo copies =>
      obtain ⟨hmanaged, hsplit, htodo, hcopies⟩ := h
      refine ⟨hmanaged, hsplit, fun id hid => hfresh (htodo id hid), fun x hx => ?_⟩
      exact ⟨(hcopies x hx).1, (hcopies x hx).2.append o⟩
  | reading c todo looked clock vals =>
      obtain ⟨htodo, hclock, done, hplaces, hvals, hnone⟩ := h
      refine ⟨fun p hp => hfresh (htodo p hp), hclock, done, hplaces, ?_, hnone⟩
      exact hvals.imp fun _ _ hv => hv.append o

theorem Sound.notified {m : ChunkBasedPSModel Val} {history : List (CacheEvent Val)}
    {phase : CachePhase Val} (h : Sound table m history phase) :
    Sound table m history phase.notified := by
  cases phase with
  | blocked c toFetch => exact h
  | _ => exact h

@[simp] theorem taken_notified (phase : CachePhase Val) : phase.notified.taken = phase.taken := by
  cases phase <;> rfl

@[simp] theorem minClock_notified (phase : CachePhase Val) :
    phase.notified.minClock = phase.minClock := by
  cases phase <;> rfl

end CachePhase

/-! ## One move -/

section Move

variable {t : ℕ} {m m' : ChunkBasedPSModel Val} {phase phase' : CachePhase Val}
  {history o : List (CacheEvent Val)} {c : CacheCall}

theorem chunk_of_place {keys : List ℕ} {places : List (ℕ × ℕ)}
    (h : keys.mapM (getLocation table) = some places) :
    places.map Prod.fst = keys.map (· / table.chunkSize) := by
  rw [mapM_eq_some] at h
  induction h with
  | nil => rfl
  | cons hloc _ ih =>
      rw [List.map_cons, List.map_cons, ih]
      simp only [getLocation] at hloc
      split at hloc
      · obtain rfl := Option.some.inj hloc
        rfl
      · cases hloc

/-- The chunks that a call looks at are all its chunks. -/
theorem mem_toCheck {todo : List ℕ} (h : c.toCheck table = some todo) {id : ℕ}
    (hid : id ∈ c.chunks table) : id ∈ todo := by
  cases c with
  | pullChunksWithMinClock chunks minClock =>
      obtain rfl := Option.some.inj h
      exact hid
  | pullWithMinClock keys minClock =>
      -- the chunk that the loop stands on is not listed again
      have hloop : ∀ {keys : List ℕ} {current : Option ℕ} {todo : List ℕ},
          chunksToPrepare table current keys = some todo → ∀ k ∈ keys,
            k / table.chunkSize ∈ todo ∨ current = some (k / table.chunkSize) := by
        intro keys
        induction keys with
        | nil => simp
        | cons key keys ih =>
            intro current todo h k hk
            simp only [chunksToPrepare, Option.bind_eq_bind, Option.bind_eq_some_iff] at h
            obtain ⟨⟨c, i⟩, hloc, rest, hrest, h⟩ := h
            obtain rfl := Option.some.inj h
            have hc : key / table.chunkSize = c := by
              simp only [getLocation] at hloc
              split at hloc
              · exact congrArg Prod.fst (Option.some.inj hloc)
              · cases hloc
            have hkey : c ∈ (if current = some c then rest else c :: rest) ∨ current = some c := by
              split
              · next heq => exact .inr heq
              · exact .inl (List.mem_cons_self ..)
            rcases List.mem_cons.mp hk with rfl | hk
            · rw [hc]
              exact hkey
            · rcases ih hrest k hk with hmem | heq
              · left
                split
                · exact hmem
                · exact List.mem_cons_of_mem _ hmem
              · obtain rfl := Option.some.inj heq
                exact hkey
      simp only [CacheCall.chunks, List.mem_map] at hid
      obtain ⟨k, hk, rfl⟩ := hid
      exact (hloop h k hk).resolve_right (by simp)

/-- A call whose chunks are all fresh enough is handed out. -/
theorem sound_handOut (h : CachePhase.handOut table c = some phase)
    (hcov : CachePhase.Covers table m c []) : phase.Sound table m history := by
  have hfresh : ∀ id ∈ c.chunks table, c.minClock ≤ m.chunkClocks id := fun id hid =>
    (hcov id hid).resolve_left List.not_mem_nil
  cases c with
  | pullWithMinClock keys minClock =>
      simp only [CachePhase.handOut, Option.bind_eq_bind, Option.bind_eq_some_iff] at h
      obtain ⟨places, hplaces, h⟩ := h
      obtain rfl := Option.some.inj h
      refine ⟨fun p hp => ?_, by simp, [], ?_, .nil, by simp⟩
      · rw [List.flatten_splitBy] at hp
        apply hfresh
        rw [CacheCall.chunks, ← chunk_of_place hplaces]
        exact List.mem_map_of_mem hp
      · rw [List.flatten_splitBy]
        exact hplaces
  | pullChunksWithMinClock chunks minClock =>
      obtain rfl := Option.some.inj h
      exact ⟨rfl, rfl, hfresh, by simp⟩

theorem sound_nextRound {toFetch : List ℕ} (hmanaged : c.managed = true)
    (h : CachePhase.nextRound table c toFetch = some phase)
    (hcov : CachePhase.Covers table m c toFetch) : phase.Sound table m history := by
  unfold CachePhase.nextRound at h
  split at h
  · next hnil =>
      rw [hnil] at hcov
      exact sound_handOut h hcov
  · obtain rfl := Option.some.inj h
    exact ⟨hmanaged, hcov⟩

theorem sound_collected {toFetch : List ℕ}
    (h : CachePhase.collected table c toFetch = some phase)
    (hcov : CachePhase.Covers table m c toFetch) : phase.Sound table m history := by
  unfold CachePhase.collected at h
  split at h
  · next hnow =>
      cases hmanaged : c.managed with
      | true => exact sound_nextRound hmanaged h hcov
      | false =>
          obtain rfl := hnow.resolve_left (by simp [hmanaged])
          exact sound_handOut h hcov
  · obtain rfl := Option.some.inj h
    exact ⟨by rwa [List.append_nil], fun _ => rfl⟩

theorem sound_decided {real wait : List ℕ} (hmanaged : c.managed = true)
    (h : CachePhase.decided table c real wait = some phase)
    (hcov : CachePhase.Covers table m c (real ++ wait)) : phase.Sound table m history := by
  unfold CachePhase.decided at h
  split at h
  · next hreal =>
      rw [hreal, List.nil_append] at hcov
      split at h
      · next hwait =>
          rw [hwait] at hcov
          exact sound_handOut h hcov
      · obtain rfl := Option.some.inj h
        exact ⟨hmanaged, hcov⟩
  · obtain rfl := Option.some.inj h
    exact ⟨hcov, by simp [hmanaged]⟩

/-- The chunks in memory are the ones delivered with their clocks. -/
def Snapshots (m : ChunkBasedPSModel Val) (history : List (CacheEvent Val)) : Prop :=
  ∀ id, Snapshot history (m.chunkClocks id) (id, m.params id)

/-- What a move guarantees of its own thread. -/
theorem Move.sound (h : Move table t m phase m' phase' o) (hlater : m.Later m')
    (hsnap : Snapshots m history)
    (hhonest : ∀ clock chunks, .delivered t clock chunks ∈ o → phase.minClock ≤ clock)
    (hsound : phase.Sound table m history) : phase'.Sound table m' (history ++ o) := by
  cases h with
  | call htodo => exact fun id hid => .inl (by simpa using mem_toCheck htodo hid)
  | collectOld hold =>
      refine CachePhase.Covers.mono hsound fun id hid => .inl ?_
      simp only [List.cons_append, List.mem_cons, List.mem_append, List.not_mem_nil] at hid ⊢
      tauto
  | collectFresh hfresh =>
      refine CachePhase.Covers.mono hsound fun id hid => ?_
      rw [List.cons_append, List.mem_cons] at hid
      rcases hid with rfl | hid
      · exact .inr hfresh
      · exact .inl hid
  | collected hphase => exact sound_collected hphase hsound
  | enter =>
      refine ⟨hsound.1, hsound.2.mono fun id hid => .inl ?_⟩
      simpa using hid
  | take hold hvisit =>
      refine ⟨hsound.1, (hsound.2.later hlater).mono fun id hid => .inl ?_⟩
      simp only [List.cons_append, List.mem_cons, List.mem_append, List.not_mem_nil] at hid ⊢
      tauto
  | await hold hvisit =>
      refine ⟨hsound.1, (hsound.2.later hlater).mono fun id hid => .inl ?_⟩
      simp only [List.cons_append, List.mem_cons, List.mem_append, List.not_mem_nil] at hid ⊢
      tauto
  | drop hfresh =>
      refine ⟨hsound.1, hsound.2.mono fun id hid => ?_⟩
      rw [List.cons_append, List.cons_append, List.mem_cons] at hid
      rcases hid with rfl | hid
      · exact .inr hfresh
      · exact .inl hid
  | decide hphase => exact sound_decided hsound.1 hphase hsound.2
  | wake => exact hsound
  | @deliver c real wait clock chunks hlen =>
      refine ⟨hsound.1, hsound.2, hhonest clock (real.zip chunks) (by simp), fun id hid => .inl ?_,
        ?_⟩
      · rwa [List.map_fst_zip (by omega)]
      · intro p hp
        exact ⟨(List.of_mem_zip hp).1, t, _, by simp, hp⟩
  | store =>
      obtain ⟨hcov, hwait, hle, hreal, htodo⟩ := hsound
      refine ⟨hcov.later hlater, hwait, hle, fun id hid => ?_, fun p hp => ?_⟩
      · rcases hreal id hid with hmem | hle
        · rw [List.map_cons, List.mem_cons] at hmem
          rcases hmem with rfl | hmem
          · exact .inr (m.le_store_chunkClocks _ _)
          · exact .inl hmem
        · exact .inr (hle.trans (hlater.clocks id))
      · obtain ⟨hp, hdel⟩ := htodo p (List.mem_cons_of_mem _ hp)
        exact ⟨hp, hdel.append _⟩
  | abort hclock => exact absurd hsound.2.2.1 (not_le.mpr hclock)
  | finish hmanaged hclock hphase =>
      obtain ⟨hcov, hwait, hle, hreal, htodo⟩ := hsound
      refine sound_nextRound hmanaged hphase ((hcov.later hlater).mono fun id hid => ?_)
      rcases List.mem_append.mp hid with hid | hid
      · exact .inr (hle.trans ((hreal id hid).resolve_left (by simp)))
      · exact .inl hid
  | stored hdirect hphase =>
      obtain ⟨hcov, hwait, hle, hreal, htodo⟩ := hsound
      refine sound_handOut hphase (hcov.mono fun id hid => .inr ?_)
      rw [hwait hdirect, List.append_nil] at hid
      exact hle.trans ((hreal id hid).resolve_left (by simp))
  | @copy c id todo copies =>
      obtain ⟨hmanaged, hsplit, htodo, hcopies⟩ := hsound
      refine ⟨hmanaged, by simpa using hsplit, fun i hi => htodo i (by simp [hi]), fun x hx => ?_⟩
      rw [List.append_nil]
      rcases List.mem_append.mp hx with hx | hx
      · exact hcopies x hx
      · obtain rfl := List.mem_singleton.mp hx
        exact ⟨htodo id (by simp), hsnap id⟩
  | copied => trivial
  | @look c p places todo clock vals =>
      obtain ⟨htodo, hclock, done, hplaces, hvals, hnone⟩ := hsound
      rw [List.append_nil]
      refine ⟨htodo, fun x hx => ?_, done, hplaces, hvals, ?_⟩
      · split at hx
        · obtain rfl := Option.some.inj hx
          exact htodo p (by simp)
        · exact hclock x hx
      · intro heq
        split at heq
        · cases heq
        · next hall => simp [heq] at hall
  | @read c places todo clock vals new hnew =>
      obtain ⟨htodo, hclock, done, hplaces, hvals, hnone⟩ := hsound
      rw [List.append_nil]
      refine ⟨fun p hp => htodo p (by simp [hp]), hclock, done ++ places, ?_, ?_, ?_⟩
      · rwa [List.append_assoc, ← List.flatten_cons]
      · refine List.rel_append hvals ?_
        have hfresh : ∀ p ∈ places, c.minClock ≤ m.chunkClocks p.1 := fun p hp =>
          htodo p (by simp [hp])
        have hread := (List.forall₂_and_left _ _).mpr ⟨hfresh, mapM_eq_some.mp hnew⟩
        exact hread.imp fun p v hv => ⟨_, _, hv.1, hsnap p.1, hv.2⟩
      · intro heq
        cases (hnone heq).1
  | readAll => trivial

/-- What the others see of a move. -/
theorem Move.later (h : Move table t m phase m' phase' o) (hinc : ∀ id, (m.fetchMgr id).Increasing)
    (hsound : phase.Sound table m history) : m.Later m' := by
  cases h with
  | take => exact ChunkBasedPSModel.later_visit (hinc _) _
  | await => exact ChunkBasedPSModel.later_visit (hinc _) _
  | store => exact m.later_store _ _
  | finish hmanaged hclock hphase =>
      refine ChunkBasedPSModel.later_eraseFetched hinc fun id hid => ?_
      exact (hsound.2.2.2.1 id hid).resolve_left (by simp)
  | _ => exact .refl m

theorem Move.increasing (h : Move table t m phase m' phase' o)
    (hinc : ∀ id, (m.fetchMgr id).Increasing) (id : ℕ) : (m'.fetchMgr id).Increasing := by
  cases h with
  | take => exact ChunkBasedPSModel.increasing_visit hinc _ _ id
  | await => exact ChunkBasedPSModel.increasing_visit hinc _ _ id
  | store =>
      rw [ChunkBasedPSModel.store_fetchMgr]
      exact hinc id
  | finish => exact ChunkBasedPSModel.increasing_eraseFetched hinc _ _ id
  | _ => exact hinc id

theorem Move.snapshots (h : Move table t m phase m' phase' o) (hsnap : Snapshots m history)
    (hsound : phase.Sound table m history) : Snapshots m' (history ++ o) := by
  have hkeep : Snapshots m (history ++ o) := fun id => (hsnap id).append o
  cases h with
  | @store c clock p todo real wait =>
      intro id
      unfold ChunkBasedPSModel.store
      split
      · by_cases hid : id = p.1
        · subst hid
          simp only [Function.update_self]
          exact .inr ((hsound.2.2.2.2 p (by simp)).2.append [])
        · simpa only [Function.update_of_ne hid] using hkeep id
      · exact hkeep id
  | _ => exact hkeep

/-- What a thread has taken is only added to inside the wait predicate, where nobody held it. -/
theorem Move.taken (h : Move table t m phase m' phase' o)
    (hinc : ∀ id, (m.fetchMgr id).Increasing) (hsound : phase.Sound table m history) :
    phase'.taken = [] ∨ (phase'.taken = phase.taken ∧ phase'.minClock = phase.minClock) ∨
      ∃ id, phase'.taken = phase.taken ++ [id] ∧ phase'.minClock = phase.minClock ∧
        ¬ m.Held id phase.minClock ∧ m'.Held id phase.minClock := by
  have hout : ∀ {c : CacheCall} {phase : CachePhase Val},
      CachePhase.handOut table c = some phase → phase.taken = [] := by
    intro c phase h
    rcases handOut_cases h with ⟨_, rfl⟩ | ⟨_, rfl⟩ <;> rfl
  have hround : ∀ {c : CacheCall} {toFetch : List ℕ} {phase : CachePhase Val},
      CachePhase.nextRound table c toFetch = some phase → phase.taken = [] := by
    intro c toFetch phase h
    unfold CachePhase.nextRound at h
    split at h
    · exact hout h
    · obtain rfl := Option.some.inj h
      rfl
  cases h with
  | collected hphase =>
      left
      unfold CachePhase.collected at hphase
      split at hphase
      · exact hround hphase
      · next hdirect =>
          obtain rfl := Option.some.inj hphase
          simp only [not_or, Bool.not_eq_true] at hdirect
          simp [CachePhase.taken, hdirect.1]
  | @take c id todo real wait hold hvisit =>
      have hspec := @ClockList.visit_spec c.minClock _ (hinc id)
      rw [hvisit] at hspec
      obtain ⟨hmem, hnot⟩ := hspec.taken rfl
      refine .inr (.inr ⟨id, rfl, rfl, ?_, .inl ?_⟩)
      · intro hheld
        exact hheld.elim hnot (not_le.mpr hold)
      · simpa [ChunkBasedPSModel.visit, CachePhase.minClock] using hmem
  | decide hphase =>
      unfold CachePhase.decided at hphase
      split at hphase
      · split at hphase
        · exact .inl (hout hphase)
        · obtain rfl := Option.some.inj hphase
          exact .inl rfl
      · obtain rfl := Option.some.inj hphase
        exact .inr (.inl ⟨if_pos hsound.1, rfl⟩)
  | finish hmanaged hclock hphase => exact .inl (hround hphase)
  | stored hdirect hphase => exact .inl (hout hphase)
  | _ => first | exact .inl rfl | exact .inr (.inl ⟨rfl, rfl⟩)

end Move

/-! ## The invariant -/

/-- The invariant of the protocol. -/
structure CacheInv (table : RangeTable) (history : List (CacheEvent Val)) (s : CacheSystem Val) :
    Prop where
  increasing : ∀ id, (s.model.fetchMgr id).Increasing
  sound : ∀ t, (s.threads t).Sound table s.model history
  snapshots : Snapshots s.model history
  /-- What a thread has taken is held for it. -/
  held : ∀ t, ∀ id ∈ (s.threads t).taken, s.model.Held id (s.threads t).minClock
  nodup : ∀ t, (s.threads t).taken.Nodup
  /-- No two threads have taken one chunk for one clock. -/
  unique : ∀ t t' id, id ∈ (s.threads t).taken → id ∈ (s.threads t').taken →
    (s.threads t).minClock = (s.threads t').minClock → t = t'

theorem cacheInv_new : CacheInv table [] (CacheSystem.new : CacheSystem Val) where
  increasing _ := List.Pairwise.nil
  sound _ := trivial
  snapshots _ := .inl ⟨rfl, rfl⟩
  held _ _ h := absurd h List.not_mem_nil
  nodup _ := List.nodup_nil
  unique _ _ _ h := absurd h List.not_mem_nil

section Step

variable {s s' : CacheSystem Val} {history o : List (CacheEvent Val)} {t : ℕ}

/-- The others have taken what they had taken, for the same clock. -/
theorem StepOf.other (h : StepOf table t s s' o) {t' : ℕ} (hne : t' ≠ t) :
    (s'.threads t').taken = (s.threads t').taken ∧
      (s'.threads t').minClock = (s.threads t').minClock := by
  rcases h.others with ⟨-, hsame⟩ | ⟨-, hnotified⟩
  · rw [hsame t' hne]
    exact ⟨rfl, rfl⟩
  · rw [hnotified t' hne]
    exact ⟨CachePhase.taken_notified _, CachePhase.minClock_notified _⟩

/-- **A step keeps the invariant** when what it delivers is as new as what was asked for. -/
theorem cacheInv_step (hinv : CacheInv table history s) (h : StepOf table t s s' o)
    (hhonest : ∀ clock chunks, .delivered t clock chunks ∈ o → (s.threads t).minClock ≤ clock) :
    CacheInv table (history ++ o) s' := by
  have hlater := h.move.later hinv.increasing (hinv.sound t)
  have htaken := h.move.taken hinv.increasing (hinv.sound t)
  -- whatever somebody else holds is not what the step takes
  have hfree : ∀ t' ≠ t, ∀ id, id ∈ (s'.threads t).taken → id ∈ (s'.threads t').taken →
      (s'.threads t').minClock ≠ (s'.threads t).minClock := by
    intro t' hne id hid hid' heq
    obtain ⟨hsame, hclock⟩ := h.other hne
    rw [hsame] at hid'
    rw [hclock] at heq
    rcases htaken with hnil | ⟨hkeep, hmin⟩ | ⟨new, hkeep, hmin, hnot, -⟩
    · rw [hnil] at hid
      cases hid
    · rw [hkeep] at hid
      rw [hmin] at heq
      exact hne (hinv.unique t' t id hid' hid heq)
    · rw [hkeep, List.mem_append, List.mem_singleton] at hid
      rw [hmin] at heq
      rcases hid with hid | rfl
      · exact hne (hinv.unique t' t id hid' hid heq)
      · exact hnot (heq ▸ hinv.held t' id hid')
  refine ⟨h.move.increasing hinv.increasing, fun t' => ?_,
    h.move.snapshots hinv.snapshots (hinv.sound t), fun t' id hid => ?_, fun t' => ?_,
    fun t₁ t₂ id h₁ h₂ heq => ?_⟩
  · by_cases hne : t' = t
    · subst hne
      exact h.move.sound hlater hinv.snapshots hhonest (hinv.sound t')
    · have hkept := (hinv.sound t').later hlater o
      rcases h.others with ⟨-, hsame⟩ | ⟨-, hnotified⟩
      · rw [hsame t' hne]
        exact hkept
      · rw [hnotified t' hne]
        exact hkept.notified
  · by_cases hne : t' = t
    · subst hne
      rcases htaken with hnil | ⟨hkeep, hmin⟩ | ⟨new, hkeep, hmin, -, hnew⟩
      · rw [hnil] at hid
        cases hid
      · rw [hkeep] at hid
        rw [hmin]
        exact hlater.held id _ (hinv.held t' id hid)
      · rw [hkeep, List.mem_append, List.mem_singleton] at hid
        rw [hmin]
        rcases hid with hid | rfl
        · exact hlater.held id _ (hinv.held t' id hid)
        · exact hnew
    · obtain ⟨hsame, hclock⟩ := h.other hne
      rw [hsame] at hid
      rw [hclock]
      exact hlater.held id _ (hinv.held t' id hid)
  · by_cases hne : t' = t
    · subst hne
      rcases htaken with hnil | ⟨hkeep, -⟩ | ⟨new, hkeep, -, hnot, -⟩
      · rw [hnil]
        exact List.nodup_nil
      · rw [hkeep]
        exact hinv.nodup t'
      · rw [hkeep, List.nodup_append]
        refine ⟨hinv.nodup t', by simp, fun a ha b hb => ?_⟩
        obtain rfl := List.mem_singleton.mp hb
        rintro rfl
        exact hnot (hinv.held t' a ha)
    · rw [(h.other hne).1]
      exact hinv.nodup t'
  · by_cases hne₁ : t₁ = t
    · by_cases hne₂ : t₂ = t
      · rw [hne₁, hne₂]
      · subst hne₁
        exact absurd heq.symm (hfree t₂ hne₂ id h₁ h₂)
    · by_cases hne₂ : t₂ = t
      · subst hne₂
        exact absurd heq (hfree t₁ hne₁ id h₂ h₁)
      · rw [(h.other hne₁).1] at h₁
        rw [(h.other hne₂).1] at h₂
        rw [(h.other hne₁).2, (h.other hne₂).2] at heq
        exact hinv.unique t₁ t₂ id h₁ h₂ heq

end Step

/-! ## Runs -/

/-- What a call hands out: chunks delivered before, each with a clock that is large enough. -/
def CacheEvent.Fresh (table : RangeTable) (before : List (CacheEvent Val)) :
    CacheEvent Val → Prop
  | delivered _ _ _ => True
  | returnedChunks _ chunks minClock copies =>
      copies.map Prod.fst = chunks ∧
        ∀ x ∈ copies, minClock ≤ x.2.2 ∧ Snapshot before x.2.2 (x.1, x.2.1)
  | returned _ keys minClock vals clock =>
      (∃ places, keys.mapM (getLocation table) = some places ∧
        List.Forall₂ (FromChunk before minClock) places vals) ∧
      (∀ x ∈ clock, minClock ≤ x) ∧ (keys ≠ [] → clock.isSome)

/-- A delivery brings at least the clock that the thread asked for. -/
def CacheInput.Honest (s : CacheSystem Val) : CacheInput Val → Prop
  | deliver t clock _ => (s.threads t).minClock ≤ clock
  | _ => True

section Run

variable {s s' : CacheSystem Val} {history o out : List (CacheEvent Val)} {t : ℕ}
  {m m' : ChunkBasedPSModel Val} {phase phase' : CachePhase Val}

/-- A move shows at most one thing, and hands out what is fresh. -/
theorem Move.fresh (h : Move table t m phase m' phase' o) (hsound : phase.Sound table m history) :
    o = [] ∨ ∃ e, o = [e] ∧ e.Fresh table history := by
  cases h with
  | deliver hlen => exact .inr ⟨_, rfl, trivial⟩
  | copied =>
      obtain ⟨-, hsplit, -, hcopies⟩ := hsound
      rw [List.append_nil] at hsplit
      exact .inr ⟨_, rfl, hsplit, hcopies⟩
  | @readAll keys minClock looked clock vals =>
      obtain ⟨-, hclock, done, hplaces, hvals, hnone⟩ := hsound
      rw [List.flatten_nil, List.append_nil] at hplaces
      refine .inr ⟨_, rfl, ⟨done, hplaces, hvals⟩, hclock, fun hkeys => ?_⟩
      by_contra hclock
      rw [Option.not_isSome_iff_eq_none] at hclock
      rw [(hnone hclock).2] at hplaces
      have hlen := (mapM_eq_some.mp hplaces).length_eq
      exact hkeys (List.eq_nil_of_length_eq_zero hlen)
  | _ => exact .inl rfl

/-- Only the servers deliver. -/
theorem honest_step {i : CacheInput Val} (h : cacheStep table s i = some (s', o))
    (hi : i.Honest s) {clock : ℤ} {chunks : List (ℕ × List Val)}
    (hmem : .delivered i.thread clock chunks ∈ o) : (s.threads i.thread).minClock ≤ clock := by
  have hfetching : ∃ c real wait, s.threads i.thread = .fetching c real wait := by
    have hmove := (cacheStep_stepOf h).move
    generalize s.threads i.thread = phase at hmove ⊢
    generalize s'.threads i.thread = phase' at hmove
    generalize s'.model = m' at hmove
    cases hmove with
    | deliver => exact ⟨_, _, _, rfl⟩
    | _ => simp at hmem
  obtain ⟨c, real, wait, hphase⟩ := hfetching
  cases i with
  | call t call => simp [cacheStep, show s.threads t = _ from hphase] at h
  | proceed t => simp [cacheStep, proceed, show s.threads t = _ from hphase] at h
  | wake t => simp [cacheStep, show s.threads t = _ from hphase] at h
  | deliver t clock' chunks' =>
      simp only [cacheStep, show s.threads t = _ from hphase] at h
      split at h
      · obtain ⟨-, rfl⟩ := Prod.mk.inj (Option.some.inj h)
        simp only [List.mem_singleton, CacheEvent.delivered.injEq] at hmem
        exact hmem.2.1 ▸ hi
      · cases h

theorem chunkClocks_step {i : CacheInput Val} (h : cacheStep table s i = some (s', o)) (id : ℕ) :
    s.model.chunkClocks id ≤ s'.model.chunkClocks id := by
  have hmove := (cacheStep_stepOf h).move
  generalize s'.model = m' at hmove ⊢
  generalize s.threads i.thread = phase at hmove
  generalize s'.threads i.thread = phase' at hmove
  cases hmove with
  | store => exact s.model.le_chunkClocks_store _ _ id
  | _ => exact le_rfl

/-- Clocks never decrease. -/
theorem chunkClocks_run {is : List (CacheInput Val)}
    (h : run (cacheStep table) s is = some (s', out)) (id : ℕ) :
    s.model.chunkClocks id ≤ s'.model.chunkClocks id := by
  refine (run_invariant (I := fun s' => s.model.chunkClocks id ≤ s'.model.chunkClocks id)
    (Q := fun _ _ => True) ?_ le_rfl h).1
  exact fun hle hstep => ⟨hle.trans (chunkClocks_step hstep id), by simp⟩

/-- **The invariant holds in every run.** -/
theorem cacheInv_run {is : List (CacheInput Val)}
    (hhonest : Along (cacheStep table) (fun _ s i => i.Honest s) [] .new is)
    (h : run (cacheStep table) .new is = some (s, out)) :
    CacheInv table out s ∧ Throughout (CacheEvent.Fresh table) out := by
  have hrun := run_along (I := fun out s =>
    CacheInv table out s ∧ Throughout (CacheEvent.Fresh table) out) ?_
    ⟨cacheInv_new, throughout_nil _⟩ hhonest h
  · rwa [List.nil_append] at hrun
  · intro out s i s' o hinv hi hstep
    have hof := cacheStep_stepOf hstep
    refine ⟨cacheInv_step hinv.1 hof fun clock chunks => honest_step hstep hi, ?_⟩
    rcases hof.move.fresh (hinv.1.sound _) with rfl | ⟨e, rfl, he⟩
    · rw [List.append_nil]
      exact hinv.2
    · exact throughout_snoc.mpr ⟨hinv.2, he⟩

/-- **The fetch manager protocol.**  In every run whose deliveries are as new as what was asked
for, every list of clocks increases, no fetch of a chunk for a clock is under way twice, clocks
never decrease, the chunks in memory are the ones delivered with their clocks, and a call hands
out chunks that are new enough. -/
theorem fetch_protocol {is : List (CacheInput Val)}
    (hhonest : Along (cacheStep table) (fun _ s i => i.Honest s) [] .new is)
    (h : run (cacheStep table) .new is = some (s, out)) :
    (∀ id, (s.model.fetchMgr id).Pairwise (·.1 < ·.1)) ∧
    ((∀ t, (s.threads t).inFlight.Nodup) ∧
      ∀ t t' id, id ∈ (s.threads t).inFlight → id ∈ (s.threads t').inFlight →
        (s.threads t).minClock = (s.threads t').minClock → t = t') ∧
    (∀ is₁ is₂ s₁ out₁, is = is₁ ++ is₂ → run (cacheStep table) .new is₁ = some (s₁, out₁) →
      ∀ id, s₁.model.chunkClocks id ≤ s.model.chunkClocks id) ∧
    (∀ id, Snapshot out (s.model.chunkClocks id) (id, s.model.params id)) ∧
    Throughout (CacheEvent.Fresh table) out := by
  obtain ⟨hinv, hfresh⟩ := cacheInv_run hhonest h
  refine ⟨hinv.increasing, ⟨fun t => ?_, fun t t' id ht ht' heq => ?_⟩, ?_, hinv.snapshots, hfresh⟩
  · have hnodup := hinv.nodup t
    cases hphase : s.threads t with
    | fetching c real wait =>
        rw [hphase] at hnodup
        exact hnodup
    | storing c clock todo real wait =>
        rw [hphase] at hnodup
        exact hnodup
    | _ => exact List.nodup_nil
  · exact hinv.unique t t' id (CachePhase.taken_of_inFlight ht) (CachePhase.taken_of_inFlight ht')
      heq
  · rintro is₁ is₂ s₁ out₁ rfl h₁
    rw [run_append, h₁, Option.bind_some, Option.bind_eq_some_iff] at h
    obtain ⟨⟨s₂, out₂⟩, h₂, h⟩ := h
    obtain ⟨rfl, -⟩ := Prod.mk.inj (Option.some.inj h)
    exact chunkClocks_run h₂

end Run

/-- Two threads ask for chunk 0 with clock 1; the second one waits for the first. -/
def sharedFetch : List (CacheInput ℕ) :=
  [.call 0 (.pullChunksWithMinClock [0] 1), .proceed 0, .proceed 0, .proceed 0, .proceed 0,
    .proceed 0, .call 1 (.pullChunksWithMinClock [0] 1), .proceed 1, .proceed 1, .proceed 1,
    .proceed 1, .proceed 1, .deliver 0 2 [[5, 7]], .proceed 0, .proceed 0, .proceed 1, .proceed 1,
    .proceed 1, .proceed 1, .proceed 1]

theorem fetch_protocol_sharedFetch : ∃ s out,
    run (cacheStep (setMaxKeyAndChunkSize 1 4 2)) .new sharedFetch = some (s, out) ∧
    s.model.chunkClocks 0 = 2 ∧
    Throughout (CacheEvent.Fresh (setMaxKeyAndChunkSize 1 4 2)) out := by
  have hrun : run (cacheStep (setMaxKeyAndChunkSize 1 4 2)) .new sharedFetch =
      some (_, [.delivered 0 2 [(0, [5, 7])], .returnedChunks 1 [0] 1 [(0, [5, 7], 2)]]) := rfl
  have hhonest : Along (cacheStep (setMaxKeyAndChunkSize 1 4 2)) (fun _ s i => i.Honest s) []
      .new sharedFetch := by
    iterate 12 apply along_cons rfl trivial
    apply along_cons rfl
    · exact (by decide : (1 : ℤ) ≤ 2)
    iterate 7 apply along_cons rfl trivial
    trivial
  exact ⟨_, _, hrun, rfl, (fetch_protocol hhonest hrun).2.2.2.2⟩

end FlexPS.ML
