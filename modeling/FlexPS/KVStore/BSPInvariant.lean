import FlexPS.KVStore.BSPEpoch

/-!
# The invariant of the BSP server

What the buffers, the store and the replies of the server are after any number of
arrivals, and that every message keeps it so.  A request above the level is parked.  A
request at the level is handled at once, and if it is the last of its kind the level
rises and the buffer of the new level is released; no request above the new level can
complete it, since the worker that sent the last request has sent nothing further.

## Main definitions

* `BSPEpoch.Contents`, `BSPEpoch.Inv` — the state as a function of arrivals and level.
* `BSPEpoch.inv_step` — one more message, whichever it is.
* `BSPEpoch.reached_run` — every schedule.
-/

namespace FlexPS.KVStore

open Lib

variable {S Val : Type} [StorageT S Val] {t : RangeTable} {serverId : ℕ} {isVector : Bool}

namespace BSPEpoch

variable {V : StoreView S Val t serverId isVector} (E : BSPEpoch V) [AddCommMonoid Val]

/-- The buffers of the server, its store and the replies it has sent. -/
structure Contents (kvId : ℕ) (base : ℕ → Val) (n : ℕ → ℕ) (level : ℕ) (srv : BSPServer S Val)
    (out : List (Reply Val)) : Prop where
  pulls : Parks srv.blockedPulls (fun e x => x.2 = 2 * e + 1 ∧ E.Waiting n level x) E.entry
  pushes : Parks srv.blockedPushes (fun e x => x.2 = 2 * e + 2 ∧ E.Waiting n level x) E.entry
  good : V.Good srv.store
  view_eq : ∀ j, V.Owned j →
    V.view srv.store j = base j + ∑ x ∈ E.applied n level, E.delta x j
  answered : Lists out (E.Answered n level) (E.reply kvId base)

/-- The state of the server; the level is the progress of the slowest worker. -/
structure Inv (kvId : ℕ) (base : ℕ → Val) (n : ℕ → ℕ) (level : ℕ) (srv : BSPServer S Val)
    (out : List (Reply Val)) : Prop where
  counters : E.Counters n level srv
  contents : E.Contents kvId base n level srv out
  slowest : Slowest E.workers (joined n) level

variable {E} {kvId : ℕ} {base : ℕ → Val} {n : ℕ → ℕ} {level w : ℕ} {srv : BSPServer S Val}
  {out : List (Reply Val)}

theorem Inv.level_pos (h : E.Inv kvId base n level srv out) : 0 < level := by
  obtain ⟨v, -, hv⟩ := h.slowest.attained
  unfold joined at hv
  omega

/-- The store at the level of a pull is the store the pull must see. -/
theorem Inv.view_held (h : E.Inv kvId base n level srv out) {k : ℕ} (hk : level = 2 * k + 1)
    (j : ℕ) (hj : V.Owned j) : V.view srv.store j = E.held base k j := by
  rw [h.contents.view_eq j hj, E.sum_applied (k := k) (by omega), held]
  intro v hv
  have := h.slowest.le v hv
  omega

theorem reply_push (base : ℕ → Val) (k : ℕ) : E.reply kvId base (w, 2 * k + 2) =
    pushReply kvId (E.entry (w, 2 * k + 2)) := by
  simp [reply, message_push, entry]

theorem reply_pull (k : ℕ) : E.reply kvId base (w, 2 * k + 1) =
    pullReply t kvId (E.entry (w, 2 * k + 1)).cmd (-1) (E.held base k)
      (E.entry (w, 2 * k + 1)) := by
  have h : (2 * k + 1) / 2 = k := by omega
  simp [reply, message_pull, entry, Request.entry, h]

/-- The reply to a message that is handled at once, if it gets one. -/
theorem lists_reply {P : ℕ × ℕ → Prop} {x : ℕ × ℕ} (hP : ∀ y, P y ↔ y = x ∧ (E.entry x).bin ≠ []) :
    Lists (if (E.entry x).bin = [] then [] else [E.reply kvId base x]) P (E.reply kvId base) := by
  split
  · next hbin => exact lists_nil fun y hy => ((hP y).mp hy).2 hbin
  · next hbin => exact lists_singleton fun y => by simp [hP, hbin]

/-- A released buffer, as a list of replies. -/
theorem lists_released {P Q : ℕ × ℕ → Prop} {items : List (ℕ × ℕ)} (hnodup : items.Nodup)
    (hmem : ∀ x, x ∈ items ↔ P x) (hQ : ∀ x, Q x ↔ P x ∧ (E.entry x).bin ≠ []) :
    Lists ((items.filter fun x => (E.entry x).bin ≠ []).map (E.reply kvId base)) Q
      (E.reply kvId base) :=
  ⟨_, hnodup.filter _, fun x => by simp [hmem, hQ], rfl⟩

/-! ### A further Init -/

/-- **A further Init is counted and answered**; nothing else changes. -/
theorem Inv.countInit (h : E.Inv kvId base n level srv out) (hw : w ∈ E.workers) (hn : n w = 0) :
    E.Inv kvId base (advance n w) level (srv.countInit kvId (E.message w 0)).1
      (out ++ (srv.countInit kvId (E.message w 0)).2) := by
  have hwait : ∀ x, E.Waiting (advance n w) level x ↔ E.Waiting n level x := by
    intro x
    rw [E.waiting_advance hw]
    refine or_iff_left ?_
    rintro ⟨-, hlt⟩
    omega
  refine ⟨h.counters.countInit kvId hw hn, ⟨?_, ?_, h.contents.good, ?_, ?_⟩, ?_⟩
  · exact h.contents.pulls.congr fun e x => by rw [hwait]
  · exact h.contents.pushes.congr fun e x => by rw [hwait]
  · rw [E.applied_advance_of_not hw (by simp [hn])]
    exact h.contents.view_eq
  · have hnew : Lists [E.reply kvId base (w, 0)] (fun x => x = (w, 0)) (E.reply kvId base) :=
      lists_singleton fun x => Iff.rfl
    refine h.contents.answered.append hnew ?_ ?_
    · rintro x ⟨-, hlt, -⟩ rfl
      simp [hn] at hlt
    · intro x
      rw [E.answered_advance hw, hn]
      simp [entry, message_init, Request.entry, Cell.intCodec]
  · rw [joined_advance_of_zero hn]
    exact h.slowest

/-! ### The arrival of a pull -/

/-- A pull above the level is parked. -/
theorem Inv.parkPull (h : E.Inv kvId base n level srv out) (hw : w ∈ E.workers) {k : ℕ}
    (hn : n w = 2 * k + 1) (hlevel : level < 2 * k + 1) :
    E.Inv kvId base (advance n w) level { srv with
      pullCount := modifyAt srv.pullCount k (· + 1)
      pullProgress := modifyAt srv.pullProgress w (· + 1)
      blockedPulls := park srv.blockedPulls k (E.entry (w, 2 * k + 1)) } out := by
  refine ⟨(h.counters.countPull hw hn).withContents _ _ _, ⟨?_, ?_, h.contents.good, ?_, ?_⟩, ?_⟩
  · refine h.contents.pulls.park ?_ fun e x => ?_
    · rintro ⟨-, -, hlt, -⟩
      simp [hn] at hlt
    · rw [E.waiting_advance hw, hn]
      constructor
      · rintro ⟨hx, hwait | ⟨rfl, -⟩⟩
        · exact Or.inl ⟨hx, hwait⟩
        · exact Or.inr ⟨by simp only at hx; omega, rfl⟩
      · rintro (⟨hx, hwait⟩ | ⟨rfl, rfl⟩)
        · exact ⟨hx, Or.inl hwait⟩
        · exact ⟨rfl, Or.inr ⟨rfl, hlevel⟩⟩
  · refine h.contents.pushes.congr fun e x => ?_
    rw [E.waiting_advance hw, hn]
    constructor
    · rintro ⟨hx, hwait | ⟨rfl, -⟩⟩
      · exact ⟨hx, hwait⟩
      · simp only at hx
        omega
    · rintro ⟨hx, hwait⟩
      exact ⟨hx, Or.inl hwait⟩
  · rw [E.applied_advance_of_not hw (by omega)]
    exact h.contents.view_eq
  · refine h.contents.answered.congr fun x => ?_
    rw [E.answered_advance hw]
    refine or_iff_left ?_
    rintro ⟨-, hle, -⟩
    omega
  · rw [joined_advance (by omega)]
    refine h.slowest.advance_of_lt hw ?_
    rw [joined]
    omega

/-- A pull at the level is answered out of the store it must see. -/
theorem Inv.answerPull (h : E.Inv kvId base n level srv out) (hw : w ∈ E.workers) {k : ℕ}
    (hn : n w = 2 * k + 1) (hlevel : level = 2 * k + 1) :
    ∃ store new, KVStore.answerPull t kvId serverId isVector srv.store
        (E.entry (w, 2 * k + 1)) = some (store, new) ∧
      E.Contents kvId base (advance n w) level { srv with store } (out ++ new) := by
  have hok : V.PullBody (E.entry (w, 2 * k + 1)).cmd (E.entry (w, 2 * k + 1)).bin := by
    simpa [entry, message_pull, Request.entry] using E.pull_ok w k
  obtain ⟨store, hanswer, hgood, hview⟩ := answerPullAs_eq V kvId _ (-1) h.contents.good hok
    fun j hj => h.view_held hlevel j hj
  have hwait : ∀ x, E.Waiting (advance n w) level x ↔ E.Waiting n level x := by
    intro x
    rw [E.waiting_advance hw]
    refine or_iff_left ?_
    rintro ⟨-, hlt⟩
    omega
  refine ⟨store, _, hanswer, ⟨?_, ?_, hgood, ?_, ?_⟩⟩
  · exact h.contents.pulls.congr fun e x => by rw [hwait]
  · exact h.contents.pushes.congr fun e x => by rw [hwait]
  · intro j hj
    rw [E.applied_advance_of_not hw (by omega), hview j hj, ← h.view_held hlevel j hj]
    exact h.contents.view_eq j hj
  · rw [← reply_pull]
    refine h.contents.answered.append (lists_reply fun y => Iff.rfl) ?_ ?_
    · rintro x ⟨-, hlt, -⟩ ⟨rfl, -⟩
      simp [hn] at hlt
    · intro x
      rw [E.answered_advance hw, hn]
      simp [hlevel]

/-- All pulls of an iteration are in: its parked pushes are applied. -/
theorem Contents.releasePushes {k : ℕ} (hc : E.Counters n (2 * k + 1) srv)
    (h : E.Contents kvId base n (2 * k + 1) srv out) :
    ∃ srv' released, srv.releasePushes t kvId = some (srv', released) ∧
      E.Counters n (2 * k + 2) srv' ∧ E.Contents kvId base n (2 * k + 2) srv' (out ++ released) := by
  obtain ⟨items, hnodup, hmem, hslot⟩ := h.pushes k
  have hitem : ∀ x ∈ items, x.2 = 2 * k + 2 := fun x hx => ((hmem x).mp hx).1
  have hok : ∀ x ∈ items, V.PushBody (E.entry x).cmd (E.entry x).bin := by
    rintro ⟨v, i⟩ hx
    obtain rfl : i = 2 * k + 2 := hitem _ hx
    simpa [entry, message_push, Request.entry] using E.push_ok v k
  obtain ⟨store, hrun, hgood, hview⟩ := run_applyPush V kvId E.entry items hok h.good
  have hreply : ((items.filter fun x => (E.entry x).bin ≠ []).map fun x =>
      pushReply kvId (E.entry x)) =
      (items.filter fun x => (E.entry x).bin ≠ []).map (E.reply kvId base) := by
    refine List.map_congr_left ?_
    rintro ⟨v, i⟩ hx
    obtain rfl : i = 2 * k + 2 := hitem _ (List.mem_of_mem_filter hx)
    rw [reply_push]
  have hiter : srv.pushIter = k := by
    rw [hc.pushIter_eq]
    omega
  rw [hreply] at hrun
  refine ⟨{ srv with
      store
      blockedPushes := clearAt srv.blockedPushes k
      replyPhase := false
      pullIter := srv.pullIter + 1 }, (items.filter fun x => (E.entry x).bin ≠ []).map
        (E.reply kvId base), ?_, hc.leaveReply.withContents _ _ _, ⟨?_, ?_, hgood, ?_, ?_⟩⟩
  · simp only [BSPServer.releasePushes, hc.serverId_eq, hc.isVector_eq, hc.isAssign_eq, hiter,
      hslot, hrun]
    rfl
  · refine h.pulls.congr fun e x => ?_
    rw [E.waiting_succ]
    constructor
    · rintro ⟨hx, hwait, -⟩
      exact ⟨hx, hwait⟩
    · rintro ⟨hx, hwait⟩
      exact ⟨hx, hwait, by omega⟩
  · refine h.pushes.clearAt fun e x => ?_
    rw [E.waiting_succ]
    constructor
    · rintro ⟨hx, hwait, hne⟩
      exact ⟨⟨hx, hwait⟩, by omega⟩
    · rintro ⟨⟨hx, hwait⟩, hne⟩
      exact ⟨hx, hwait, by omega⟩
  · intro j hj
    rw [hview j hj, h.view_eq j hj, add_assoc]
    congr 1
    refine sum_add_listed hnodup ?_ ?_ fun x => E.delta x j
    · intro x hx hmem'
      have := hitem x hx
      have := (E.mem_applied.mp hmem').2.1
      omega
    · intro x
      rw [hmem, E.mem_applied, E.mem_applied]
      simp only [Waiting]
      constructor
      · rintro ⟨h₁, h₂, h₃, h₄, h₅⟩
        by_cases hx : x.2 = 2 * k + 2
        · exact Or.inr ⟨hx, h₁, h₅, by omega⟩
        · exact Or.inl ⟨h₁, by omega, h₃, h₄, h₅⟩
      · rintro (⟨h₁, h₂, h₃, h₄, h₅⟩ | ⟨h₁, h₂, h₃, h₄⟩)
        · exact ⟨h₁, by omega, h₃, h₄, h₅⟩
        · exact ⟨h₂, by omega, by omega, by omega, h₃⟩
  · refine h.answered.append (lists_released hnodup hmem fun x => Iff.rfl) ?_ ?_
    · rintro x ⟨-, -, hle, -⟩ ⟨⟨hx, -⟩, -⟩
      omega
    · intro x
      rw [E.answered_succ]
      simp only [and_assoc]

/-! ### The arrival of a push -/

/-- A push above the level is parked. -/
theorem Inv.parkPush (h : E.Inv kvId base n level srv out) (hw : w ∈ E.workers) {k : ℕ}
    (hn : n w = 2 * k + 2) (hlevel : level < 2 * k + 2) :
    E.Inv kvId base (advance n w) level { srv with
      pushCount := modifyAt srv.pushCount k (· + 1)
      pushProgress := modifyAt srv.pushProgress w (· + 1)
      blockedPushes := park srv.blockedPushes k (E.entry (w, 2 * k + 2)) } out := by
  refine ⟨(h.counters.countPush hw hn).withContents _ _ _, ⟨?_, ?_, h.contents.good, ?_, ?_⟩, ?_⟩
  · refine h.contents.pulls.congr fun e x => ?_
    rw [E.waiting_advance hw, hn]
    constructor
    · rintro ⟨hx, hwait | ⟨rfl, -⟩⟩
      · exact ⟨hx, hwait⟩
      · simp only at hx
        omega
    · rintro ⟨hx, hwait⟩
      exact ⟨hx, Or.inl hwait⟩
  · refine h.contents.pushes.park ?_ fun e x => ?_
    · rintro ⟨-, -, hlt, -⟩
      simp [hn] at hlt
    · rw [E.waiting_advance hw, hn]
      constructor
      · rintro ⟨hx, hwait | ⟨rfl, -⟩⟩
        · exact Or.inl ⟨hx, hwait⟩
        · exact Or.inr ⟨by simp only at hx; omega, rfl⟩
      · rintro (⟨hx, hwait⟩ | ⟨rfl, rfl⟩)
        · exact ⟨hx, Or.inl hwait⟩
        · exact ⟨rfl, Or.inr ⟨rfl, hlevel⟩⟩
  · rw [E.applied_advance_of_not hw (by omega)]
    exact h.contents.view_eq
  · refine h.contents.answered.congr fun x => ?_
    rw [E.answered_advance hw]
    refine or_iff_left ?_
    rintro ⟨-, hle, -⟩
    omega
  · rw [joined_advance (by omega)]
    refine h.slowest.advance_of_lt hw ?_
    rw [joined]
    omega

/-- A push at the level goes into the store. -/
theorem Inv.applyPush (h : E.Inv kvId base n level srv out) (hw : w ∈ E.workers) {k : ℕ}
    (hn : n w = 2 * k + 2) (hlevel : level = 2 * k + 2) :
    ∃ store new, KVStore.applyPush t kvId serverId isVector false srv.store
        (E.entry (w, 2 * k + 2)) = some (store, new) ∧
      E.Contents kvId base (advance n w) level { srv with store } (out ++ new) := by
  have hok : V.PushBody (E.entry (w, 2 * k + 2)).cmd (E.entry (w, 2 * k + 2)).bin := by
    simpa [entry, message_push, Request.entry] using E.push_ok w k
  obtain ⟨store, happly, hgood, hview⟩ := applyPush_eq V kvId h.contents.good hok
  have hwait : ∀ x, E.Waiting (advance n w) level x ↔ E.Waiting n level x := by
    intro x
    rw [E.waiting_advance hw]
    refine or_iff_left ?_
    rintro ⟨-, hlt⟩
    omega
  refine ⟨store, _, happly, ⟨?_, ?_, hgood, ?_, ?_⟩⟩
  · exact h.contents.pulls.congr fun e x => by rw [hwait]
  · exact h.contents.pushes.congr fun e x => by rw [hwait]
  · intro j hj
    rw [hview j hj, h.contents.view_eq j hj, add_assoc]
    congr 1
    have hsum := sum_add_listed (A := E.applied n level) (B := E.applied (advance n w) level)
      (List.nodup_singleton (w, 2 * k + 2)) ?_ ?_ fun x => E.delta x j
    · simpa [delta] using hsum
    · rintro x hx hmem
      obtain rfl := List.mem_singleton.mp hx
      have := (E.mem_applied.mp hmem).2.2.2.2
      simp only at this
      omega
    · intro x
      rw [E.mem_applied_advance hw, hn, List.mem_singleton]
      simp [hlevel]
  · rw [← reply_push base]
    refine h.contents.answered.append (lists_reply fun y => Iff.rfl) ?_ ?_
    · rintro x ⟨-, hlt, -⟩ ⟨rfl, -⟩
      simp [hn] at hlt
    · intro x
      rw [E.answered_advance hw, hn]
      simp [hlevel]

/-- All pushes of an iteration are in: the parked pulls of the next one are answered,
each out of the store it must see. -/
theorem Contents.releasePulls {k : ℕ} (hc : E.Counters n (2 * k + 2) srv)
    (h : E.Contents kvId base n (2 * k + 2) srv out)
    (hall : ∀ v ∈ E.workers, 2 * (k + 1) < joined n v) :
    ∃ srv' released, srv.releasePulls t kvId = some (srv', released) ∧
      E.Counters n (2 * k + 3) srv' ∧ E.Contents kvId base n (2 * k + 3) srv' (out ++ released) := by
  obtain ⟨items, hnodup, hmem, hslot⟩ := h.pulls (k + 1)
  have hitem : ∀ x ∈ items, x.2 = 2 * (k + 1) + 1 := fun x hx => ((hmem x).mp hx).1
  have hok : ∀ x ∈ items, V.PullBody (E.entry x).cmd (E.entry x).bin := by
    rintro ⟨v, i⟩ hx
    obtain rfl : i = 2 * (k + 1) + 1 := hitem _ hx
    simpa [entry, message_pull, Request.entry] using E.pull_ok v (k + 1)
  have hheld : ∀ j, V.Owned j → V.view srv.store j = E.held base (k + 1) j := by
    intro j hj
    rw [h.view_eq j hj, E.sum_applied (k := k + 1) (by omega) hall, held]
  obtain ⟨store, hrun, hgood, hview⟩ := run_answerPullAs V kvId Blocked.cmd (fun _ => -1) E.entry
    items hok h.good hheld
  have hreply : ((items.filter fun x => (E.entry x).bin ≠ []).map fun x =>
      pullReply t kvId (E.entry x).cmd (-1) (E.held base (k + 1)) (E.entry x)) =
      (items.filter fun x => (E.entry x).bin ≠ []).map (E.reply kvId base) := by
    refine List.map_congr_left ?_
    rintro ⟨v, i⟩ hx
    obtain rfl : i = 2 * (k + 1) + 1 := hitem _ (List.mem_of_mem_filter hx)
    rw [reply_pull]
  have hiter : srv.pullIter = k + 1 := by
    rw [hc.pullIter_eq]
    omega
  have happlied : E.applied n (2 * k + 3) = E.applied n (2 * k + 2) := by
    ext x
    rw [E.mem_applied, E.mem_applied]
    constructor
    · rintro ⟨h₁, h₂, h₃, h₄, h₅⟩
      exact ⟨h₁, by omega, h₃, h₄, h₅⟩
    · rintro ⟨h₁, h₂, h₃, h₄, h₅⟩
      exact ⟨h₁, by omega, h₃, h₄, h₅⟩
  rw [hreply] at hrun
  refine ⟨{ srv with
      store
      blockedPulls := clearAt srv.blockedPulls (k + 1)
      replyPhase := true
      pushIter := srv.pushIter + 1 }, (items.filter fun x => (E.entry x).bin ≠ []).map
        (E.reply kvId base), ?_, hc.enterReply.withContents _ _ _, ⟨?_, ?_, hgood, ?_, ?_⟩⟩
  · have hrun' : run (KVStore.answerPull t kvId serverId isVector) srv.store (items.map E.entry) =
        some (store, (items.filter fun x => (E.entry x).bin ≠ []).map (E.reply kvId base)) := hrun
    simp only [BSPServer.releasePulls, hc.serverId_eq, hc.isVector_eq, hiter, hslot, hrun']
    rfl
  · refine h.pulls.clearAt fun e x => ?_
    rw [E.waiting_succ]
    constructor
    · rintro ⟨hx, hwait, hne⟩
      exact ⟨⟨hx, hwait⟩, by omega⟩
    · rintro ⟨⟨hx, hwait⟩, hne⟩
      exact ⟨hx, hwait, by omega⟩
  · refine h.pushes.congr fun e x => ?_
    rw [E.waiting_succ]
    constructor
    · rintro ⟨hx, hwait, -⟩
      exact ⟨hx, hwait⟩
    · rintro ⟨hx, hwait⟩
      exact ⟨hx, hwait, by omega⟩
  · intro j hj
    rw [happlied, hview j hj, ← hheld j hj]
    exact h.view_eq j hj
  · refine h.answered.append (lists_released hnodup hmem fun x => Iff.rfl) ?_ ?_
    · rintro x ⟨-, -, hle, -⟩ ⟨⟨hx, -⟩, -⟩
      omega
    · intro x
      rw [E.answered_succ]
      simp only [and_assoc]
      rfl

/-! ### Every message and every schedule -/

/-- The level rises by one when the last worker's message of that number is in. -/
theorem Inv.slowest_advance (h : E.Inv kvId base n level srv out) (hw : w ∈ E.workers)
    (hn : n w = level) :
    if past E.workers (advance n w) level = E.workers.card
      then Slowest E.workers (joined (advance n w)) (level + 1)
      else Slowest E.workers (joined (advance n w)) level := by
  have hpos := h.level_pos
  rw [joined_advance (by omega), ← past_joined _ _ hpos, joined_advance (by omega)]
  split
  · next hpast => exact (h.slowest.advance_of_past hw hpast).1
  · next hpast => exact h.slowest.advance_of_not_past hpast

/-- The server takes the pull of iteration `k`, whatever its level. -/
theorem Inv.handlePull (h : E.Inv kvId base n level srv out) (hw : w ∈ E.workers) {k : ℕ}
    (hn : n w = 2 * k + 1) :
    ∃ srv' new level', srv.handlePull t kvId (E.message w (2 * k + 1)) = some (srv', new) ∧
      E.Inv kvId base (advance n w) level' srv' (out ++ new) := by
  have hprogress : slot srv.pullProgress w = k := by
    rw [h.counters.pullProgress_eq w hw, joined]
    omega
  have hle : level ≤ 2 * k + 1 := by
    have := h.slowest.le w hw
    rw [joined] at this
    omega
  rcases hle.lt_or_eq with hlt | heq
  · have hblock : (!srv.replyPhase || srv.pullIter != k) = true := by
      simp only [h.counters.replyPhase_eq, h.counters.pullIter_eq, Bool.or_eq_true,
        Bool.not_eq_true', decide_eq_false_iff_not, bne_iff_ne]
      omega
    refine ⟨_, [], level, ?_, by simpa using h.parkPull hw hn hlt⟩
    simp only [BSPServer.handlePull, message_src, hprogress, hblock, if_true]
    rfl
  · subst heq
    have hiter : srv.pullIter = k := by
      rw [h.counters.pullIter_eq]
      omega
    have hdirect : (!srv.replyPhase || srv.pullIter != k) = false := by
      simp [h.counters.replyPhase_eq, hiter, Nat.add_mod]
    obtain ⟨store, new, hanswer, hcontents⟩ := h.answerPull hw hn rfl
    have hcounters := h.counters.countPull hw hn
    have hcount := hcounters.pullCount_eq k
    have hslow := h.slowest_advance hw hn
    have hentry : (E.message w (2 * k + 1)).entry = E.entry (w, 2 * k + 1) := rfl
    have hstart : srv.handlePull t kvId (E.message w (2 * k + 1)) =
        if (past E.workers (advance n w) (2 * k + 1) : ℤ) = E.workers.card then
          (BSPServer.releasePushes t kvId { srv with
            pullCount := modifyAt srv.pullCount k (· + 1)
            pullProgress := modifyAt srv.pullProgress w (· + 1), store }).bind
              fun p => some (p.1, new ++ p.2)
        else some ({ srv with
            pullCount := modifyAt srv.pullCount k (· + 1)
            pullProgress := modifyAt srv.pullProgress w (· + 1), store }, new) := by
      simp only [BSPServer.handlePull, message_src, hprogress, hdirect, Bool.false_eq_true,
        if_false, hentry, h.counters.serverId_eq, h.counters.isVector_eq, hanswer,
        h.counters.numWorkers_eq]
      simp only [hiter, hcount]
      rfl
    by_cases hpast : past E.workers (advance n w) (2 * k + 1) = E.workers.card
    · rw [if_pos hpast] at hslow
      obtain ⟨srv', released, hrelease, hc', ht'⟩ :=
        Contents.releasePushes (hcounters.withContents store _ _) ⟨hcontents.pulls,
          hcontents.pushes, hcontents.good, hcontents.view_eq, hcontents.answered⟩
      refine ⟨srv', new ++ released, 2 * k + 2, ?_, hc', by rwa [← List.append_assoc], hslow⟩
      rw [hstart, if_pos (by exact_mod_cast hpast)]
      exact congrArg (Option.bind · _) hrelease
    · rw [if_neg hpast] at hslow
      refine ⟨_, new, 2 * k + 1, ?_, hcounters.withContents store _ _, ⟨hcontents.pulls,
          hcontents.pushes, hcontents.good, hcontents.view_eq, hcontents.answered⟩, hslow⟩
      rw [hstart, if_neg (by exact_mod_cast hpast)]

/-- The server takes the push of iteration `k`, whatever its level. -/
theorem Inv.handlePush (h : E.Inv kvId base n level srv out) (hw : w ∈ E.workers) {k : ℕ}
    (hn : n w = 2 * k + 2) :
    ∃ srv' new level', srv.handlePush t kvId (E.message w (2 * k + 2)) = some (srv', new) ∧
      E.Inv kvId base (advance n w) level' srv' (out ++ new) := by
  have hpos := h.level_pos
  have hprogress : slot srv.pushProgress w = k := by
    rw [h.counters.pushProgress_eq w hw, joined]
    omega
  have hle : level ≤ 2 * k + 2 := by
    have := h.slowest.le w hw
    rw [joined] at this
    omega
  rcases hle.lt_or_eq with hlt | heq
  · have hblock : (srv.replyPhase || srv.pushIter != k) = true := by
      simp only [h.counters.replyPhase_eq, h.counters.pushIter_eq, Bool.or_eq_true,
        decide_eq_true_eq, bne_iff_ne]
      omega
    refine ⟨_, [], level, ?_, by simpa using h.parkPush hw hn hlt⟩
    simp only [BSPServer.handlePush, message_src, hprogress, hblock, if_true]
    rfl
  · subst heq
    have hiter : srv.pushIter = k := by
      rw [h.counters.pushIter_eq]
      omega
    have hdirect : (srv.replyPhase || srv.pushIter != k) = false := by
      simp [h.counters.replyPhase_eq, hiter]
    obtain ⟨store, new, happly, hcontents⟩ := h.applyPush hw hn rfl
    have hcounters := h.counters.countPush hw hn
    have hcount := hcounters.pushCount_eq k
    have hslow := h.slowest_advance hw hn
    have hentry : (E.message w (2 * k + 2)).entry = E.entry (w, 2 * k + 2) := rfl
    have hstart : srv.handlePush t kvId (E.message w (2 * k + 2)) =
        if (past E.workers (advance n w) (2 * k + 2) : ℤ) = E.workers.card then
          (BSPServer.releasePulls t kvId { srv with
            pushCount := modifyAt srv.pushCount k (· + 1)
            pushProgress := modifyAt srv.pushProgress w (· + 1), store }).bind
              fun p => some (p.1, new ++ p.2)
        else some ({ srv with
            pushCount := modifyAt srv.pushCount k (· + 1)
            pushProgress := modifyAt srv.pushProgress w (· + 1), store }, new) := by
      simp only [BSPServer.handlePush, message_src, hprogress, hdirect, Bool.false_eq_true,
        if_false, hentry, h.counters.serverId_eq, h.counters.isVector_eq,
        h.counters.isAssign_eq, happly, h.counters.numWorkers_eq]
      simp only [hiter, hcount]
      rfl
    by_cases hpast : past E.workers (advance n w) (2 * k + 2) = E.workers.card
    · rw [if_pos hpast] at hslow
      obtain ⟨srv', released, hrelease, hc', ht'⟩ :=
        Contents.releasePulls (hcounters.withContents store _ _) ⟨hcontents.pulls,
          hcontents.pushes, hcontents.good, hcontents.view_eq, hcontents.answered⟩ hslow.le
      refine ⟨srv', new ++ released, 2 * k + 3, ?_, hc', by rwa [← List.append_assoc], hslow⟩
      rw [hstart, if_pos (by exact_mod_cast hpast)]
      exact congrArg (Option.bind · _) hrelease
    · rw [if_neg hpast] at hslow
      refine ⟨_, new, 2 * k + 2, ?_, hcounters.withContents store _ _, ⟨hcontents.pulls,
          hcontents.pushes, hcontents.good, hcontents.view_eq, hcontents.answered⟩, hslow⟩
      rw [hstart, if_neg (by exact_mod_cast hpast)]

/-- A worker's message after its Init is handled by one of the two branches under
consistency control. -/
theorem handle_pull (w k : ℕ) : srv.handle t kvId (E.message w (2 * k + 1)) =
    srv.handlePull t kvId (E.message w (2 * k + 1)) := by
  obtain ⟨hne, hlt⟩ := E.pull_controlled w k
  simp [BSPServer.handle, message_pull, hne, hlt]

theorem handle_push (w k : ℕ) : srv.handle t kvId (E.message w (2 * k + 2)) =
    srv.handlePush t kvId (E.message w (2 * k + 2)) := by
  obtain ⟨hne, hlt⟩ := E.push_controlled w k
  simp [BSPServer.handle, message_push, hne, hlt]

/-- An Init that is not the first of its epoch is only counted. -/
theorem handle_init (w : ℕ) (hcount : srv.initCount ≠ 0) :
    srv.handle t kvId (E.message w 0) = some (srv.countInit kvId (E.message w 0)) := by
  simp [BSPServer.handle, BSPServer.handleInit, message_init, hcount]

/-- **One more message**, whichever worker it comes from. -/
theorem inv_step (h : E.Inv kvId base n level srv out) (hstarted : ∃ v ∈ E.workers, 0 < n v)
    (hw : w ∈ E.workers) :
    ∃ srv' new level', srv.handle t kvId (E.message w (n w)) = some (srv', new) ∧
      E.Inv kvId base (advance n w) level' srv' (out ++ new) := by
  obtain hn | ⟨k, hn⟩ | ⟨k, hn⟩ : n w = 0 ∨ (∃ k, n w = 2 * k + 1) ∨ ∃ k, n w = 2 * k + 2 := by
    rcases Nat.eq_zero_or_pos (n w) with h₀ | h₀
    · exact Or.inl h₀
    · rcases Nat.mod_two_eq_zero_or_one (n w) with h₁ | h₁
      · exact Or.inr (Or.inr ⟨n w / 2 - 1, by omega⟩)
      · exact Or.inr (Or.inl ⟨n w / 2, by omega⟩)
  · have hcount : srv.initCount ≠ 0 := by
      obtain ⟨v, hv, hvpos⟩ := hstarted
      have hne : past E.workers n 0 ≠ E.workers.card := by
        intro hcard
        have := past_eq_card_iff.mp hcard w hw
        omega
      rw [h.counters.initCount_eq, if_neg hne, past]
      exact Finset.card_ne_zero_of_mem (Finset.mem_filter.mpr ⟨hv, hvpos⟩)
    refine ⟨_, _, level, ?_, h.countInit hw hn⟩
    rw [hn, handle_init w hcount]
  · rw [hn, handle_pull]
    exact h.handlePull hw hn
  · rw [hn, handle_push]
    exact h.handlePush hw hn

/-- A server on which an epoch may start: a `bsp_add` server between two epochs. -/
structure Idle (V : StoreView S Val t serverId isVector) (srv : BSPServer S Val) : Prop where
  serverId_eq : srv.serverId = serverId
  isVector_eq : srv.isVector = isVector
  isAssign_eq : srv.isAssign = false
  initReplyPhase_eq : srv.initReplyPhase = true
  initCount_eq : srv.initCount = 0
  good : V.Good srv.store

/-- The reset of the first Init establishes the invariant. -/
theorem inv_reset (h : Idle V srv) :
    E.Inv kvId (V.view srv.store) (fun _ => 0) 1 (srv.reset E.workers.card) [] := by
  have hcard : E.workers.card ≠ 0 := Finset.card_ne_zero.mpr E.workers_nonempty
  have hpast : ∀ c, past E.workers (fun _ => 0) c = 0 := fun c =>
    past_zero_of_forall fun _ _ => Nat.zero_le c
  have hempty : E.applied (fun _ => 0) 1 = ∅ := by
    ext x
    simp [E.mem_applied]
  refine ⟨⟨h.serverId_eq, h.isVector_eq, h.isAssign_eq, ?_, ?_, ?_, ?_, ?_, ?_, ?_, rfl, rfl⟩,
    ⟨parks_nil ?_, parks_nil ?_, h.good, ?_, lists_nil ?_⟩, ⟨?_, ?_⟩⟩
  · simp [BSPServer.reset]
  · simp [BSPServer.reset, h.initCount_eq, hpast]
  · simp [BSPServer.reset, joined]
  · simp [BSPServer.reset, joined]
  · simp [BSPServer.reset, hpast]
  · simp [BSPServer.reset, hpast]
  · simp [BSPServer.reset, h.initReplyPhase_eq]
  · rintro e x ⟨-, -, hlt, -⟩
    exact Nat.not_lt_zero _ hlt
  · rintro e x ⟨-, -, hlt, -⟩
    exact Nat.not_lt_zero _ hlt
  · simp [BSPServer.reset, hempty]
  · rintro x ⟨-, hlt, -⟩
    exact Nat.not_lt_zero _ hlt
  · simp [joined]
  · obtain ⟨v, hv⟩ := E.workers_nonempty
    exact ⟨v, hv, by simp [joined]⟩

/-- The first message of an epoch is an Init; it resets the server and counts itself. -/
theorem inv_first (kvId : ℕ) (h : Idle V srv) (hw : w ∈ E.workers) :
    ∃ srv' new, srv.handle t kvId (E.message w 0) = some (srv', new) ∧
      E.Inv kvId (V.view srv.store) (advance (fun _ => 0) w) 1 srv' new := by
  refine ⟨_, _, ?_, by simpa using (inv_reset h).countInit hw rfl⟩
  simp [BSPServer.handle, BSPServer.handleInit, message_init, h.initCount_eq]

/-- The stream of a worker's `n`-th message. -/
def stream (E : BSPEpoch V) (kvId w n : ℕ) : BinStream Val := (E.message w n).toBin kvId

/-- Before the first message the server is untouched; from then on the invariant
holds at some level. -/
def Reached (E : BSPEpoch V) (kvId : ℕ) (start : BSPServer S Val) (sched : List ℕ)
    (srv : BSPServer S Val) (out : List (Reply Val)) : Prop :=
  (sched = [] ∧ srv = start ∧ out = []) ∨
    (∃ v ∈ E.workers, 0 < sched.count v) ∧
      ∃ level, E.Inv kvId (V.view start.store) (fun v => sched.count v) level srv out

/-- **Every schedule keeps the invariant and runs without failing.** -/
theorem reached_run (kvId : ℕ) {start : BSPServer S Val} (hstart : Idle V start) (sched : List ℕ)
    (hsched : ∀ w ∈ sched, w ∈ E.workers) :
    ∃ srv out, run (BSPServer.process t) start (deliveries (E.stream kvId) sched) =
      some (srv, out) ∧ E.Reached kvId start sched srv out := by
  refine run_deliveries_induction (· ∈ E.workers) (E.Reached kvId start) (Or.inl ⟨rfl, rfl, rfl⟩)
    ?_ sched hsched
  rintro sched w srv out hw hreached
  have hstarted : ∃ v ∈ E.workers, 0 < (sched ++ [w]).count v := ⟨w, hw, by simp⟩
  simp only [stream, BSPServer.process_toBin]
  rcases hreached with ⟨rfl, rfl, rfl⟩ | ⟨hbefore, level, hinv⟩
  · obtain ⟨srv', new, hhandle, hinv'⟩ := inv_first (E := E) kvId hstart hw
    refine ⟨srv', new, hhandle, Or.inr ⟨hstarted, 1, ?_⟩⟩
    rw [count_snoc]
    exact hinv'
  · obtain ⟨srv', new, level', hhandle, hinv'⟩ := inv_step hinv hbefore hw
    refine ⟨srv', new, hhandle, Or.inr ⟨hstarted, level', ?_⟩⟩
    rw [count_snoc]
    exact hinv'

end BSPEpoch

end FlexPS.KVStore
