import FlexPS.KVStore.SSPEpoch

/-!
# The invariant of the SSP server

What the counters, the buffers and the store of the server are after any number of
arrivals, and that every message keeps it so.  The clock rises by one at most per push:
the push that completes a clock is the only one of its worker that can, so the clock it
completes is the clock of the slowest worker and the next one is still open.

## Main definitions

* `SSPEpoch.Contents`, `SSPEpoch.Inv` — the state as a function of arrivals and clock.
* `SSPEpoch.Step` — what one message does, its replies included.
* `SSPEpoch.inv_step` — one more message, whichever it is.
* `SSPEpoch.reached_run` — every schedule.
-/

namespace FlexPS.KVStore

open Lib

variable {S Val : Type} [StorageT S Val] {t : RangeTable} {serverId : ℕ} {isVector : Bool}

namespace SSPEpoch

variable {V : StoreView S Val t serverId isVector} (E : SSPEpoch V)

/-! ## Bodies -/

theorem message_push_of_isPush {w i : ℕ} (h : E.IsPush w i) : (E.message w i).push = true := by
  cases i with
  | zero => rfl
  | succ i => exact (E.isPush_succ w i).mp h

theorem message_push_of_pull {w i : ℕ} (hi : 0 < i) (h : ¬ E.IsPush w i) :
    (E.message w i).push = false := by
  cases i with
  | zero => omega
  | succ i => simpa [message] using h

theorem pushBody_entry {x : ℕ × ℕ} (h : E.IsPush x.1 x.2) :
    V.PushBody (E.entry x).cmd (E.entry x).bin := by
  obtain ⟨w, i⟩ := x
  cases i with
  | zero => exact absurd h (E.not_isPush_zero w)
  | succ i => exact E.push_ok w i ((E.isPush_succ w i).mp h)

theorem pullBody_entry {x : ℕ × ℕ} (hi : 0 < x.2) (h : ¬ E.IsPush x.1 x.2) :
    V.PullBody (bodyCmd (E.entry x).cmd) (E.entry x).bin := by
  obtain ⟨w, i⟩ := x
  cases i with
  | zero => exact absurd hi (lt_irrefl 0)
  | succ i => exact E.pull_ok w i (by simpa using h)

theorem controlled_message {w i : ℕ} (hi : 0 < i) : Controlled (E.message w i).cmd := by
  cases i with
  | zero => omega
  | succ i => exact E.controlled w i

/-- A message that waits comes after the Init of its worker. -/
theorem Waiting.pos {E : SSPEpoch V} {n : ℕ → ℕ} {m : ℕ} {x : ℕ × ℕ} (h : E.Waiting n m x) :
    0 < x.2 := by
  obtain ⟨w, i⟩ := x
  cases i with
  | zero => exact absurd h.2.2 (by simp)
  | succ i => exact Nat.succ_pos i

variable [AddCommMonoid Val]

theorem reply_of_isPush (kvId : ℕ) (base : ℕ → Val) (n : ℕ → ℕ) (m : ℕ) {x : ℕ × ℕ}
    (h : E.IsPush x.1 x.2) : E.reply kvId base n m x = pushReply kvId (E.entry x) := by
  simp only [reply, E.message_push_of_isPush h, if_true]
  rfl

theorem reply_of_pull (kvId : ℕ) (base : ℕ → Val) (n : ℕ → ℕ) (m : ℕ) {x : ℕ × ℕ}
    (hi : 0 < x.2) (h : ¬ E.IsPush x.1 x.2) : E.reply kvId base n m x =
      pullReply t kvId (bodyCmd (E.entry x).cmd) (sentClock (E.entry x).cmd m)
        (E.held base n m) (E.entry x) := by
  simp only [reply, E.message_push_of_pull hi h, Bool.false_eq_true, if_false]
  rfl

/-! ## The invariant -/

/-- The buffers of the server and its store. -/
structure Contents (base : ℕ → Val) (n : ℕ → ℕ) (m : ℕ) (srv : SSPServer S Val) : Prop where
  pushes : Parks srv.blockedPushes
    (fun e x => E.IsPush x.1 x.2 ∧ E.clock x = e + E.staleness ∧ E.Waiting n m x) E.entry
  pulls : Parks srv.blockedPulls
    (fun e x => ¬ E.IsPush x.1 x.2 ∧ E.clock x = e + E.staleness ∧ E.Waiting n m x) E.entry
  good : V.Good srv.store
  view_eq : ∀ j, V.Owned j → V.view srv.store j = E.held base n m j

/-- The state of the server; its clock is the progress of the slowest worker. -/
structure Inv (base : ℕ → Val) (n : ℕ → ℕ) (m : ℕ) (srv : SSPServer S Val) : Prop where
  counters : E.Counters n m srv
  contents : E.Contents base n m srv
  slowest : Slowest E.workers (E.progress n) m

/-- One message takes the server from `n` arrivals and clock `m` to `n'` and `m'`; it
answers what could not be answered before, out of the store it leaves behind. -/
structure Step (kvId : ℕ) (base : ℕ → Val) (n : ℕ → ℕ) (m : ℕ) (n' : ℕ → ℕ) (m' : ℕ)
    (srv' : SSPServer S Val) (new : List (Reply Val)) : Prop where
  inv : E.Inv base n' m' srv'
  replies : Lists new (fun x => E.Answered n' m' x ∧ ¬ E.Answered n m x)
    (E.reply kvId base n' m')
  mono : ∀ x, E.Answered n m x → E.Answered n' m' x

variable {E} {kvId : ℕ} {base : ℕ → Val} {n : ℕ → ℕ} {m w : ℕ} {srv : SSPServer S Val}

omit [AddCommMonoid Val] in
/-- What is new when a message is answered at once. -/
theorem answered_new_iff (hw : w ∈ E.workers) (hle : E.clock (w, n w) ≤ m + E.staleness)
    (x : ℕ × ℕ) : E.Answered (advance n w) m x ∧ ¬ E.Answered n m x ↔
      x = (w, n w) ∧ (E.entry (w, n w)).bin ≠ [] := by
  rw [E.answered_advance hw]
  constructor
  · rintro ⟨hold | ⟨hx, -, hbin⟩, hnot⟩
    · exact absurd hold hnot
    · exact ⟨hx, hbin⟩
  · rintro ⟨rfl, hbin⟩
    exact ⟨Or.inr ⟨rfl, hle, hbin⟩, fun hold => lt_irrefl _ hold.2.1⟩

/-- The reply to a message that is handled at once, if it gets one. -/
theorem lists_reply {n' : ℕ → ℕ} {m' : ℕ} {P : ℕ × ℕ → Prop} {x : ℕ × ℕ}
    (hP : ∀ y, P y ↔ y = x ∧ (E.entry x).bin ≠ []) :
    Lists (if (E.entry x).bin = [] then [] else [E.reply kvId base n' m' x]) P
      (E.reply kvId base n' m') := by
  split
  · next hbin => exact lists_nil fun y hy => ((hP y).mp hy).2 hbin
  · next hbin => exact lists_singleton fun y => by simp [hP, hbin]

/-! ### A further Init -/

/-- **A further Init is counted and answered**; nothing else changes. -/
theorem Inv.countInit (h : E.Inv base n m srv) (hw : w ∈ E.workers) (hn : n w = 0) :
    E.Step kvId base n m (advance n w) m (srv.countInit kvId (E.message w 0)).1
      (srv.countInit kvId (E.message w 0)).2 := by
  have hnot : ¬ E.IsPush w (n w) := by
    rw [hn]
    exact E.not_isPush_zero w
  have hle : E.clock (w, n w) ≤ m + E.staleness := by simp [hn]
  have hwait := E.waiting_advance_of_le hw hle
  refine ⟨⟨h.counters.countInit kvId hw hn, ⟨?_, ?_, h.contents.good, ?_⟩, ?_⟩, ?_, ?_⟩
  · exact h.contents.pushes.congr fun e x => by rw [hwait]
  · exact h.contents.pulls.congr fun e x => by rw [hwait]
  · simp only [held, E.applied_advance_of_not hw fun hand => hnot hand.1]
    exact h.contents.view_eq
  · rw [E.progress_advance_other hnot]
    exact h.slowest
  · have hnew : Lists [E.reply kvId base (advance n w) m (w, 0)] (fun x => x = (w, 0))
        (E.reply kvId base (advance n w) m) := lists_singleton fun x => Iff.rfl
    refine hnew.congr fun x => ?_
    rw [answered_new_iff hw hle, hn]
    simp [entry, message, Request.entry, Cell.intCodec]
  · exact fun x hx => (E.answered_advance hw x).mpr (Or.inl hx)

/-! ### The arrival of a pull -/

/-- A pull that is too far ahead is parked. -/
theorem Inv.parkPull (h : E.Inv base n m srv) (hw : w ∈ E.workers) (hn : 0 < n w)
    (hpull : ¬ E.IsPush w (n w)) (hlt : m + E.staleness < E.clock (w, n w)) :
    E.Step kvId base n m (advance n w) m { srv with
      workerProgress := grow srv.workerProgress (w + 1)
      blockedPulls := park srv.blockedPulls (E.clock (w, n w) - E.staleness)
        (E.entry (w, n w)) } [] := by
  refine ⟨⟨(h.counters.countPull hw hn hpull).withContents _ _ _, ⟨?_, ?_, h.contents.good, ?_⟩,
    ?_⟩, lists_nil ?_, fun x hx => (E.answered_advance hw x).mpr (Or.inl hx)⟩
  · refine h.contents.pushes.congr fun e x => ?_
    rw [E.waiting_advance hw]
    constructor
    · rintro ⟨hpush, hclock, hwait | ⟨rfl, -⟩⟩
      · exact ⟨hpush, hclock, hwait⟩
      · exact absurd hpush hpull
    · rintro ⟨hpush, hclock, hwait⟩
      exact ⟨hpush, hclock, Or.inl hwait⟩
  · refine h.contents.pulls.park ?_ fun e x => ?_
    · rintro ⟨-, -, -, hlt', -⟩
      exact lt_irrefl _ hlt'
    · rw [E.waiting_advance hw]
      constructor
      · rintro ⟨hx, hclock, hwait | ⟨rfl, -⟩⟩
        · exact Or.inl ⟨hx, hclock, hwait⟩
        · exact Or.inr ⟨by omega, rfl⟩
      · rintro (⟨hx, hclock, hwait⟩ | ⟨rfl, rfl⟩)
        · exact ⟨hx, hclock, Or.inl hwait⟩
        · exact ⟨hpull, by omega, Or.inr ⟨rfl, hlt⟩⟩
  · simp only [held, E.applied_advance_of_not hw fun hand => hpull hand.1]
    exact h.contents.view_eq
  · rw [E.progress_advance_other hpull]
    exact h.slowest
  · rintro x ⟨hnew, hold⟩
    rcases (E.answered_advance hw x).mp hnew with hx | ⟨-, hle, -⟩
    · exact hold hx
    · omega

/-- A pull that is not too far ahead is answered out of the store. -/
theorem Inv.answerPull (kvId : ℕ) (h : E.Inv base n m srv) (hw : w ∈ E.workers) (hn : 0 < n w)
    (hpull : ¬ E.IsPush w (n w)) (hle : E.clock (w, n w) ≤ m + E.staleness) :
    ∃ store new, SSPServer.answerPull t kvId serverId isVector m srv.store
        (E.entry (w, n w)) = some (store, new) ∧
      E.Step kvId base n m (advance n w) m { srv with
        workerProgress := grow srv.workerProgress (w + 1), store } new := by
  have hheld : E.held base (advance n w) m = E.held base n m := by
    funext j
    simp only [held, E.applied_advance_of_not hw fun hand => hpull hand.1]
  obtain ⟨store, hanswer, hgood, hview⟩ := answerPullAs_eq V kvId _ (sentClock _ m)
    h.contents.good (E.pullBody_entry (x := (w, n w)) hn hpull) h.contents.view_eq
  have hwait := E.waiting_advance_of_le hw hle
  refine ⟨store, _, hanswer, ⟨(h.counters.countPull hw hn hpull).withContents _ _ _,
    ⟨?_, ?_, hgood, ?_⟩, ?_⟩, ?_, fun x hx => (E.answered_advance hw x).mpr (Or.inl hx)⟩
  · exact h.contents.pushes.congr fun e x => by rw [hwait]
  · exact h.contents.pulls.congr fun e x => by rw [hwait]
  · rw [hheld]
    exact hview
  · rw [E.progress_advance_other hpull]
    exact h.slowest
  · rw [← hheld, ← E.reply_of_pull kvId base (advance n w) m (x := (w, n w)) hn hpull]
    exact lists_reply (answered_new_iff hw hle)

/-- The server takes a pull, whatever its clock. -/
theorem Inv.handlePull (h : E.Inv base n m srv) (hw : w ∈ E.workers) (hn : 0 < n w)
    (hpull : ¬ E.IsPush w (n w)) :
    ∃ srv' new, srv.handlePull t kvId (E.message w (n w)) = some (srv', new) ∧
      E.Step kvId base n m (advance n w) m srv' new := by
  have hprogress : slot (grow srv.workerProgress (w + 1)) w = E.clock (w, n w) := by
    rw [slot_grow]
    exact h.counters.workerProgress_eq w hw
  have hentry : (E.message w (n w)).entry = E.entry (w, n w) := rfl
  by_cases hle : E.clock (w, n w) ≤ m + E.staleness
  · obtain ⟨store, new, hanswer, hstep⟩ := h.answerPull kvId hw hn hpull hle
    refine ⟨_, new, ?_, hstep⟩
    have hguard : ((E.clock (w, n w) : ℤ) - E.staleness ≤ m) := by omega
    simp only [SSPServer.handlePull, message_src, hprogress, h.counters.staleness_eq,
      h.counters.minClock_eq, hguard, if_true, hentry, h.counters.serverId_eq,
      h.counters.isVector_eq, hanswer]
    rfl
  · refine ⟨_, [], ?_, h.parkPull hw hn hpull (by omega)⟩
    have hguard : ¬ ((E.clock (w, n w) : ℤ) - E.staleness ≤ m) := by omega
    have hindex : ((E.clock (w, n w) : ℤ) - E.staleness).toNat =
        E.clock (w, n w) - E.staleness := by omega
    simp only [SSPServer.handlePull, message_src, hprogress, h.counters.staleness_eq,
      h.counters.minClock_eq, hguard, if_false, hentry, hindex]

/-! ### The arrival of a push -/

/-- A push that is too far ahead is parked. -/
theorem Inv.parkPush (h : E.Inv base n m srv) (hw : w ∈ E.workers) (hn : 0 < n w)
    (hpush : E.IsPush w (n w)) (hlt : m + E.staleness < E.clock (w, n w)) :
    E.Step kvId base n m (advance n w) m { srv with
      clockCount := modifyAt srv.clockCount (E.progress n w) (· + 1)
      workerProgress := modifyAt srv.workerProgress w (· + 1)
      blockedPushes := park srv.blockedPushes (E.clock (w, n w) - E.staleness)
        (E.entry (w, n w)) } [] := by
  refine ⟨⟨(h.counters.countPush hw hn hpush).withContents _ _ _, ⟨?_, ?_, h.contents.good, ?_⟩,
    ?_⟩, lists_nil ?_, fun x hx => (E.answered_advance hw x).mpr (Or.inl hx)⟩
  · refine h.contents.pushes.park ?_ fun e x => ?_
    · rintro ⟨-, -, -, hlt', -⟩
      exact lt_irrefl _ hlt'
    · rw [E.waiting_advance hw]
      constructor
      · rintro ⟨hx, hclock, hwait | ⟨rfl, -⟩⟩
        · exact Or.inl ⟨hx, hclock, hwait⟩
        · exact Or.inr ⟨by omega, rfl⟩
      · rintro (⟨hx, hclock, hwait⟩ | ⟨rfl, rfl⟩)
        · exact ⟨hx, hclock, Or.inl hwait⟩
        · exact ⟨hpush, by omega, Or.inr ⟨rfl, hlt⟩⟩
  · refine h.contents.pulls.congr fun e x => ?_
    rw [E.waiting_advance hw]
    constructor
    · rintro ⟨hx, hclock, hwait | ⟨rfl, -⟩⟩
      · exact ⟨hx, hclock, hwait⟩
      · exact absurd hpush hx
    · rintro ⟨hx, hclock, hwait⟩
      exact ⟨hx, hclock, Or.inl hwait⟩
  · have hnot : ¬ (E.IsPush w (n w) ∧ E.clock (w, n w) ≤ m + E.staleness) := by
      rintro ⟨-, hle⟩
      omega
    simp only [held, E.applied_advance_of_not hw hnot]
    exact h.contents.view_eq
  · rw [E.progress_advance_push hpush]
    exact h.slowest.advance_of_lt hw (by rw [progress]; omega)
  · rintro x ⟨hnew, hold⟩
    rcases (E.answered_advance hw x).mp hnew with hx | ⟨-, hle, -⟩
    · exact hold hx
    · omega

/-- A push that is not too far ahead goes into the store. -/
theorem Inv.applyPush (kvId : ℕ) (h : E.Inv base n m srv) (hw : w ∈ E.workers)
    (hpush : E.IsPush w (n w)) (hle : E.clock (w, n w) ≤ m + E.staleness) :
    ∃ store new, KVStore.applyPush t kvId serverId isVector false srv.store
        (E.entry (w, n w)) = some (store, new) ∧
      E.Contents base (advance n w) m { srv with store } ∧
      ∀ m', Lists new (fun x => E.Answered (advance n w) m x ∧ ¬ E.Answered n m x)
        (E.reply kvId base (advance n w) m') := by
  obtain ⟨store, happly, hgood, hview⟩ := applyPush_eq V kvId h.contents.good
    (E.pushBody_entry (x := (w, n w)) hpush)
  have hwait := E.waiting_advance_of_le hw hle
  refine ⟨store, _, happly, ⟨?_, ?_, hgood, ?_⟩, ?_⟩
  · exact h.contents.pushes.congr fun e x => by rw [hwait]
  · exact h.contents.pulls.congr fun e x => by rw [hwait]
  · intro j hj
    rw [hview j hj, h.contents.view_eq j hj, held, held, add_assoc]
    congr 1
    have hsum := sum_add_listed (A := E.applied n m) (B := E.applied (advance n w) m)
      (List.nodup_singleton (w, n w)) ?_ ?_ fun x => E.delta x j
    · simpa [delta] using hsum
    · rintro x hx hmem
      obtain rfl := List.mem_singleton.mp hx
      exact lt_irrefl _ (E.mem_applied.mp hmem).2.1
    · intro x
      rw [E.mem_applied_advance hw, List.mem_singleton]
      simp [hpush, hle]
  · intro m'
    rw [← E.reply_of_isPush kvId base (advance n w) m' (x := (w, n w)) hpush]
    exact lists_reply (answered_new_iff hw hle)

/-- A released buffer, as a list of replies. -/
theorem lists_released {n' : ℕ → ℕ} {m' : ℕ} {P Q : ℕ × ℕ → Prop} {items : List (ℕ × ℕ)}
    (hnodup : items.Nodup) (hmem : ∀ x, x ∈ items ↔ P x)
    (hQ : ∀ x, Q x ↔ P x ∧ (E.entry x).bin ≠ []) :
    Lists ((items.filter fun x => (E.entry x).bin ≠ []).map (E.reply kvId base n' m')) Q
      (E.reply kvId base n' m') :=
  ⟨_, hnodup.filter _, fun x => by simp [hmem, hQ], rfl⟩

/-- All pushes of a clock are in: the buffers of the next clock are released, and the
pulls see the pushes released with them. -/
theorem Contents.releaseClock (kvId : ℕ) (hc : E.Counters n (m + 1) srv) (h : E.Contents base n m srv) :
    ∃ srv' released, srv.releaseClock t kvId = some (srv', released) ∧
      E.Counters n (m + 1) srv' ∧ E.Contents base n (m + 1) srv' ∧
      Lists released (fun x => E.clock x = m + 1 + E.staleness ∧ E.Waiting n m x ∧
        (E.entry x).bin ≠ []) (E.reply kvId base n (m + 1)) := by
  obtain ⟨pushes, hnodup, hmem, hslot⟩ := h.pushes (m + 1)
  obtain ⟨pulls, hnodup', hmem', hslot'⟩ := h.pulls (m + 1)
  have hpush : ∀ x ∈ pushes, E.IsPush x.1 x.2 := fun x hx => ((hmem x).mp hx).1
  have hpull : ∀ x ∈ pulls, 0 < x.2 ∧ ¬ E.IsPush x.1 x.2 := fun x hx =>
    ⟨((hmem' x).mp hx).2.2.pos, ((hmem' x).mp hx).1⟩
  obtain ⟨store, hrun, hgood, hview⟩ := run_applyPush V kvId E.entry pushes
    (fun x hx => E.pushBody_entry (hpush x hx)) h.good
  have hheld : ∀ j, V.Owned j → V.view store j = E.held base n (m + 1) j := by
    intro j hj
    rw [hview j hj, h.view_eq j hj, held, held, add_assoc]
    congr 1
    refine sum_add_listed hnodup ?_ (fun x => ?_) fun x => E.delta x j
    · intro x hx hin
      have hclock := ((hmem x).mp hx).2.1
      have := (E.mem_applied.mp hin).2.2.2
      omega
    · rw [E.mem_applied_succ, hmem]
  obtain ⟨store', hrun', hgood', hview'⟩ := run_answerPullAs V kvId (fun b => bodyCmd b.cmd)
    (fun b => sentClock b.cmd (m + 1)) E.entry pulls
    (fun x hx => E.pullBody_entry (hpull x hx).1 (hpull x hx).2) hgood hheld
  have hreply : ((pushes.filter fun x => (E.entry x).bin ≠ []).map fun x =>
      pushReply kvId (E.entry x)) =
      (pushes.filter fun x => (E.entry x).bin ≠ []).map (E.reply kvId base n (m + 1)) :=
    List.map_congr_left fun x hx =>
      (E.reply_of_isPush _ _ _ _ (hpush x (List.mem_of_mem_filter hx))).symm
  have hreply' : ((pulls.filter fun x => (E.entry x).bin ≠ []).map fun x =>
      pullReply t kvId (bodyCmd (E.entry x).cmd) (sentClock (E.entry x).cmd (m + 1))
        (E.held base n (m + 1)) (E.entry x)) =
      (pulls.filter fun x => (E.entry x).bin ≠ []).map (E.reply kvId base n (m + 1)) := by
    refine List.map_congr_left fun x hx => ?_
    obtain ⟨hpos, hnot⟩ := hpull x (List.mem_of_mem_filter hx)
    exact (E.reply_of_pull _ _ _ _ hpos hnot).symm
  rw [hreply] at hrun
  rw [hreply'] at hrun'
  have hrun'' : run (SSPServer.answerPull t kvId serverId isVector (m + 1)) store
      (pulls.map E.entry) = some (store', (pulls.filter fun x => (E.entry x).bin ≠ []).map
        (E.reply kvId base n (m + 1))) := hrun'
  refine ⟨{ srv with
      store := store'
      blockedPushes := clearAt (grow srv.blockedPushes (m + 1 + 1)) (m + 1)
      blockedPulls := clearAt (grow srv.blockedPulls (m + 1 + 1)) (m + 1) },
    (pushes.filter fun x => (E.entry x).bin ≠ []).map (E.reply kvId base n (m + 1)) ++
      (pulls.filter fun x => (E.entry x).bin ≠ []).map (E.reply kvId base n (m + 1)), ?_,
    hc.withContents _ _ _, ⟨?_, ?_, hgood', hview'⟩, ?_⟩
  · simp only [SSPServer.releaseClock, hc.serverId_eq, hc.isVector_eq, hc.minClock_eq, slot_grow,
      hslot, hslot', hrun, Option.bind_eq_bind, Option.bind_some, hrun'']
  · refine (h.pushes.grow _).clearAt fun e x => ?_
    rw [E.waiting_succ]
    constructor
    · rintro ⟨hx, hclock, hwait, hne⟩
      exact ⟨⟨hx, hclock, hwait⟩, by omega⟩
    · rintro ⟨⟨hx, hclock, hwait⟩, hne⟩
      exact ⟨hx, hclock, hwait, by omega⟩
  · refine (h.pulls.grow _).clearAt fun e x => ?_
    rw [E.waiting_succ]
    constructor
    · rintro ⟨hx, hclock, hwait, hne⟩
      exact ⟨⟨hx, hclock, hwait⟩, by omega⟩
    · rintro ⟨⟨hx, hclock, hwait⟩, hne⟩
      exact ⟨hx, hclock, hwait, by omega⟩
  · refine (lists_released hnodup hmem fun x => Iff.rfl).append
      (lists_released hnodup' hmem' fun x => Iff.rfl) ?_ fun x => ?_
    · rintro x ⟨⟨hx, -⟩, -⟩ ⟨⟨hx', -⟩, -⟩
      exact hx' hx
    · by_cases hx : E.IsPush x.1 x.2 <;> simp [hx, and_assoc]

/-- The push of the slowest worker's clock decides whether the clock rises. -/
theorem Inv.slowest_advance (h : E.Inv base n m srv) (hw : w ∈ E.workers)
    (hpush : E.IsPush w (n w)) :
    if past E.workers (E.progress (advance n w)) m = E.workers.card
      then Slowest E.workers (E.progress (advance n w)) (m + 1)
      else Slowest E.workers (E.progress (advance n w)) m := by
  rw [E.progress_advance_push hpush]
  split
  · next hpast => exact (h.slowest.advance_of_past hw hpast).1
  · next hpast => exact h.slowest.advance_of_not_past hpast

/-- `process_push` on a push that is not too far ahead; `clock_count_[min_clock_]` is in
range because the push was counted at its own clock, which is no smaller. -/
theorem Inv.processPush (kvId : ℕ) (h : E.Inv base n m srv) (hw : w ∈ E.workers) (hn : 0 < n w)
    (hpush : E.IsPush w (n w)) (hle : E.clock (w, n w) ≤ m + E.staleness) :
    ∃ srv' new m', SSPServer.processPush t kvId { srv with
        clockCount := modifyAt srv.clockCount (E.progress n w) (· + 1)
        workerProgress := modifyAt srv.workerProgress w (· + 1) } (E.entry (w, n w)) =
        some (srv', new) ∧
      E.Step kvId base n m (advance n w) m' srv' new := by
  obtain ⟨store, out, happly, hcontents, hout⟩ := h.applyPush kvId hw hpush hle
  have hcounters := h.counters.countPush hw hn hpush
  have hslow := h.slowest_advance hw hpush
  have hcount : (modifyAt srv.clockCount (E.progress n w) (· + 1))[m]? =
      some (past E.workers (E.progress (advance n w)) m) := by
    have hlt : m < (modifyAt srv.clockCount (E.progress n w) (· + 1)).length := by
      have := h.slowest.le w hw
      rw [length_modifyAt]
      omega
    rw [← hcounters.clockCount_eq m, slot, List.getD_eq_getElem?_getD,
      List.getElem?_eq_getElem hlt, Option.getD_some]
  have hold : ∀ {m'}, m ≤ m' → ∀ x, E.Answered n m x → E.Answered (advance n w) m' x := by
    rintro m' hm' x ⟨h₁, h₂, h₃, h₄⟩
    exact ⟨h₁, lt_of_lt_of_le h₂ (le_advance n x.1 w), by omega, h₄⟩
  simp only [SSPServer.processPush, h.counters.serverId_eq, h.counters.isVector_eq, happly,
    h.counters.minClock_eq, h.counters.numWorkers_eq, hcount, Option.bind_eq_bind,
    Option.bind_some]
  by_cases hpast : past E.workers (E.progress (advance n w)) m = E.workers.card
  · rw [if_pos hpast] at hslow
    have hrisen : E.Counters (advance n w) (m + 1) { srv with
        clockCount := modifyAt srv.clockCount (E.progress n w) (· + 1)
        workerProgress := modifyAt srv.workerProgress w (· + 1)
        minClock := m + 1, store } :=
      ⟨hcounters.serverId_eq, hcounters.isVector_eq, hcounters.staleness_eq,
        hcounters.numWorkers_eq, hcounters.initCount_eq, hcounters.workerProgress_eq,
        hcounters.clockCount_eq, rfl⟩
    obtain ⟨srv', released, hrelease, hc', ht', hreleased⟩ :=
      Contents.releaseClock kvId hrisen ⟨hcontents.pushes, hcontents.pulls,
        hcontents.good, hcontents.view_eq⟩
    refine ⟨srv', out ++ released, m + 1, ?_, ⟨hc', ht', hslow⟩, ?_, hold (Nat.le_succ m)⟩
    · simp only [h.counters.serverId_eq, h.counters.isVector_eq, h.counters.numWorkers_eq] at hrelease
      rw [if_pos (by exact_mod_cast hpast), hrelease, Option.bind_some]
    · refine (hout (m + 1)).append hreleased ?_ fun x => ?_
      · rintro x ⟨⟨-, -, hx, -⟩, -⟩ ⟨hclock, -⟩
        omega
      · rw [E.answered_succ]
        constructor
        · rintro ⟨hx | hx, hnot⟩
          · exact Or.inl ⟨hx, hnot⟩
          · exact Or.inr hx
        · rintro (⟨hx, hnot⟩ | hx)
          · exact ⟨Or.inl hx, hnot⟩
          · refine ⟨Or.inr hx, fun hans => ?_⟩
            have := hans.2.2.1
            have := hx.1
            omega
  · rw [if_neg hpast] at hslow
    refine ⟨_, out, m, ?_, ⟨hcounters.withContents store _ _, ⟨hcontents.pushes,
      hcontents.pulls, hcontents.good, hcontents.view_eq⟩, hslow⟩, hout m, hold le_rfl⟩
    rw [if_neg (by exact_mod_cast hpast)]
    simp only [h.counters.serverId_eq, h.counters.isVector_eq, h.counters.minClock_eq,
      h.counters.numWorkers_eq]

/-- The server takes a push, whatever its clock. -/
theorem Inv.handlePush (h : E.Inv base n m srv) (hw : w ∈ E.workers) (hn : 0 < n w)
    (hpush : E.IsPush w (n w)) :
    ∃ srv' new m', srv.handlePush t kvId (E.message w (n w)) = some (srv', new) ∧
      E.Step kvId base n m (advance n w) m' srv' new := by
  have hprogress : slot srv.workerProgress w = E.progress n w :=
    h.counters.workerProgress_eq w hw
  have hentry : (E.message w (n w)).entry = E.entry (w, n w) := rfl
  by_cases hle : E.progress n w ≤ m + E.staleness
  · obtain ⟨srv', new, m', hprocess, hstep⟩ := h.processPush kvId hw hn hpush hle
    refine ⟨srv', new, m', ?_, hstep⟩
    have hguard : ((E.progress n w : ℤ) - E.staleness ≤ m) := by omega
    simp only [SSPServer.handlePush, message_src, hprogress, h.counters.staleness_eq,
      h.counters.minClock_eq, hguard, if_true, hentry]
    simpa only [h.counters.staleness_eq, h.counters.minClock_eq] using hprocess
  · refine ⟨_, [], m, ?_, h.parkPush hw hn hpush (Nat.lt_of_not_le hle)⟩
    have hguard : ¬ ((E.progress n w : ℤ) - E.staleness ≤ m) := by omega
    have hindex : ((E.progress n w : ℤ) - E.staleness).toNat =
        E.clock (w, n w) - E.staleness := by
      rw [progress]
      omega
    simp only [SSPServer.handlePush, message_src, hprogress, h.counters.staleness_eq,
      h.counters.minClock_eq, hguard, if_false, hentry, hindex]

/-! ### Every message and every schedule -/

/-- An Init that is not the first of its epoch is only counted. -/
theorem handle_init (w : ℕ) (hcount : srv.initCount ≠ 0) :
    srv.handle t kvId (E.message w 0) = some (srv.countInit kvId (E.message w 0)) := by
  simp [SSPServer.handle, SSPServer.handleInit, message, hcount]

/-- A worker's message after its Init is handled by one of the two branches under
consistency control. -/
theorem handle_push {i : ℕ} (hi : 0 < i) (hpush : E.IsPush w i) :
    srv.handle t kvId (E.message w i) = srv.handlePush t kvId (E.message w i) := by
  obtain ⟨hne, hlt⟩ := E.controlled_message (w := w) hi
  rw [SSPServer.handle, if_neg hne, if_neg (by omega), if_pos (E.message_push_of_isPush hpush)]

theorem handle_pull {i : ℕ} (hi : 0 < i) (hpull : ¬ E.IsPush w i) :
    srv.handle t kvId (E.message w i) = srv.handlePull t kvId (E.message w i) := by
  obtain ⟨hne, hlt⟩ := E.controlled_message (w := w) hi
  rw [SSPServer.handle, if_neg hne, if_neg (by omega),
    if_neg (by simp [E.message_push_of_pull hi hpull])]

/-- **One more message**, whichever worker it comes from. -/
theorem inv_step (kvId : ℕ) (h : E.Inv base n m srv) (hstarted : ∃ v ∈ E.workers, 0 < n v)
    (hw : w ∈ E.workers) :
    ∃ srv' new m', srv.handle t kvId (E.message w (n w)) = some (srv', new) ∧
      E.Step kvId base n m (advance n w) m' srv' new := by
  rcases Nat.eq_zero_or_pos (n w) with hn | hn
  · have hcount : srv.initCount ≠ 0 := by
      obtain ⟨v, hv, hvpos⟩ := hstarted
      have hne : past E.workers n 0 ≠ E.workers.card := by
        intro hcard
        have := past_eq_card_iff.mp hcard w hw
        omega
      rw [h.counters.initCount_eq, if_neg hne, past]
      exact Finset.card_ne_zero_of_mem (Finset.mem_filter.mpr ⟨hv, hvpos⟩)
    refine ⟨_, _, m, ?_, h.countInit hw hn⟩
    rw [hn, handle_init w hcount]
  · by_cases hpush : E.IsPush w (n w)
    · rw [handle_push hn hpush]
      exact h.handlePush hw hn hpush
    · rw [handle_pull hn hpush]
      obtain ⟨srv', new, hhandle, hstep⟩ := h.handlePull hw hn hpush
      exact ⟨srv', new, m, hhandle, hstep⟩

/-- A server on which an epoch may start. -/
structure Idle (E : SSPEpoch V) (srv : SSPServer S Val) : Prop where
  serverId_eq : srv.serverId = serverId
  isVector_eq : srv.isVector = isVector
  staleness_eq : srv.staleness = E.staleness
  initCount_eq : srv.initCount = 0
  good : V.Good srv.store

/-- The reset of the first Init establishes the invariant. -/
theorem inv_reset (h : E.Idle srv) :
    E.Inv (V.view srv.store) (fun _ => 0) 0 (srv.reset E.workers.card) := by
  have hcard : E.workers.card ≠ 0 := Finset.card_ne_zero.mpr E.workers_nonempty
  have hprogress : ∀ w, E.progress (fun _ => 0) w = 0 := fun w => E.clock_zero w
  have hempty : E.applied (fun _ => 0) 0 = ∅ := by
    ext x
    simp [E.mem_applied]
  refine ⟨⟨h.serverId_eq, h.isVector_eq, h.staleness_eq, ?_, ?_, ?_, ?_, rfl⟩,
    ⟨parks_nil ?_, parks_nil ?_, h.good, ?_⟩, ⟨fun w _ => Nat.zero_le _, ?_⟩⟩
  · simp [SSPServer.reset]
  · simp [SSPServer.reset, h.initCount_eq, past]
  · simp [SSPServer.reset, hprogress]
  · simp [SSPServer.reset, past, hprogress]
  · rintro e x ⟨-, -, -, hlt, -⟩
    exact Nat.not_lt_zero _ hlt
  · rintro e x ⟨-, -, -, hlt, -⟩
    exact Nat.not_lt_zero _ hlt
  · simp [SSPServer.reset, held, hempty]
  · obtain ⟨v, hv⟩ := E.workers_nonempty
    exact ⟨v, hv, hprogress v⟩

/-- The first message of an epoch is an Init; it resets the server and counts itself. -/
theorem inv_first (kvId : ℕ) (h : E.Idle srv) (hw : w ∈ E.workers) :
    ∃ srv' new, srv.handle t kvId (E.message w 0) = some (srv', new) ∧
      E.Step kvId (V.view srv.store) (fun _ => 0) 0 (advance (fun _ => 0) w) 0 srv' new := by
  refine ⟨_, _, ?_, (inv_reset h).countInit hw rfl⟩
  simp [SSPServer.handle, SSPServer.handleInit, message, h.initCount_eq]

/-- The stream of a worker's `n`-th message. -/
def stream (E : SSPEpoch V) (kvId w n : ℕ) : BinStream Val := (E.message w n).toBin kvId

/-- Before the first message the server is untouched; from then on the invariant
holds at some clock. -/
def Reached (E : SSPEpoch V) (start : SSPServer S Val) (sched : List ℕ) (srv : SSPServer S Val)
    (out : List (Reply Val)) : Prop :=
  (sched = [] ∧ srv = start ∧ out = []) ∨
    (∃ v ∈ E.workers, 0 < sched.count v) ∧
      ∃ m, E.Inv (V.view start.store) (fun v => sched.count v) m srv ∧
        Lists (out.map fun r => (r.src, r.ts)) (E.Answered (fun v => sched.count v) m) E.key

/-- The replies of a step continue the list of answered messages. -/
theorem Step.answered {n' : ℕ → ℕ} {m' : ℕ} {srv' : SSPServer S Val}
    {out new : List (Reply Val)} (h : E.Step kvId base n m n' m' srv' new)
    (hout : Lists (out.map fun r => (r.src, r.ts)) (E.Answered n m) E.key) :
    Lists ((out ++ new).map fun r => (r.src, r.ts)) (E.Answered n' m') E.key := by
  obtain ⟨items, hnodup, hmem, rfl⟩ := h.replies
  have hnew : Lists ((items.map (E.reply kvId base n' m')).map fun r => (r.src, r.ts))
      (fun x => E.Answered n' m' x ∧ ¬ E.Answered n m x) E.key := by
    refine ⟨items, hnodup, hmem, ?_⟩
    rw [List.map_map]
    exact List.map_congr_left fun x _ => E.reply_key kvId base n' m' x
  rw [List.map_append]
  refine hout.append hnew (fun x hx hx' => hx'.2 hx) fun x => ?_
  constructor
  · intro hx
    by_cases hold : E.Answered n m x
    · exact Or.inl hold
    · exact Or.inr ⟨hx, hold⟩
  · rintro (hx | hx)
    · exact h.mono x hx
    · exact hx.1

/-- **One more delivery** of a schedule, in terms of the step it is. -/
theorem reached_step (kvId : ℕ) {start srv : SSPServer S Val} {sched : List ℕ}
    {out : List (Reply Val)} (hstart : E.Idle start) (hw : w ∈ E.workers)
    (h : E.Reached start sched srv out) :
    ∃ srv' new, SSPServer.process t srv (E.stream kvId w (sched.count w)) = some (srv', new) ∧
      E.Reached start (sched ++ [w]) srv' (out ++ new) ∧
      ∃ m m', E.Step kvId (V.view start.store) (fun v => sched.count v) m
        (fun v => (sched ++ [w]).count v) m' srv' new := by
  have hstarted : ∃ v ∈ E.workers, 0 < (sched ++ [w]).count v := ⟨w, hw, by simp⟩
  simp only [stream, SSPServer.process_toBin]
  rcases h with ⟨rfl, rfl, rfl⟩ | ⟨hbefore, m, hinv, hout⟩
  · obtain ⟨srv', new, hhandle, hfirst⟩ := inv_first kvId hstart hw
    have hstep : E.Step kvId (V.view srv.store) (fun v => [].count v) 0
        (fun v => ([] ++ [w]).count v) 0 srv' new := by
      rw [count_snoc]
      exact hfirst
    have hnone : Lists (([] : List (Reply Val)).map fun r => (r.src, r.ts))
        (E.Answered (fun _ => 0) 0) E.key :=
      lists_nil fun x hx => Nat.not_lt_zero _ hx.2.1
    exact ⟨srv', new, hhandle, Or.inr ⟨hstarted, 0, hstep.inv, hstep.answered hnone⟩, 0, 0, hstep⟩
  · obtain ⟨srv', new, m', hhandle, hstep⟩ := inv_step kvId hinv hbefore hw
    rw [← count_snoc sched w] at hstep
    exact ⟨srv', new, hhandle, Or.inr ⟨hstarted, m', hstep.inv, hstep.answered hout⟩, m, m', hstep⟩

/-- **Every schedule keeps the invariant and runs without failing.** -/
theorem reached_run (kvId : ℕ) {start : SSPServer S Val} (hstart : E.Idle start) (sched : List ℕ)
    (hsched : ∀ w ∈ sched, w ∈ E.workers) :
    ∃ srv out, run (SSPServer.process t) start (deliveries (E.stream kvId) sched) =
      some (srv, out) ∧ E.Reached start sched srv out := by
  refine run_deliveries_induction (· ∈ E.workers) (E.Reached start) (Or.inl ⟨rfl, rfl, rfl⟩)
    (fun sched w srv out hw hreached => ?_) sched hsched
  obtain ⟨srv', new, hprocess, hreached', -⟩ := reached_step kvId hstart hw hreached
  exact ⟨srv', new, hprocess, hreached'⟩

end SSPEpoch

end FlexPS.KVStore
