import FlexPS.KVStore.BSPInvariant

/-!
# What the BSP server guarantees

The guarantees of an epoch, for every number of workers and every interleaving of
their messages: a pull of iteration `k` sees the pushes of the iterations before it
and nothing else, nothing is applied or answered twice, and a request is parked only
while some worker still owes the request it waits for.

## Main definitions

* `BSPEpoch.isolation` — what pulls see, and that nothing happens twice.
* `BSPEpoch.parked_iff` — which requests are parked, and no phase switch is missed.
-/

namespace FlexPS.KVStore

open Lib

variable {S Val : Type} [StorageT S Val] {t : RangeTable} {serverId : ℕ} {isVector : Bool}

namespace BSPEpoch

variable {V : StoreView S Val t serverId isVector} {E : BSPEpoch V} [AddCommMonoid Val]
  {kvId : ℕ} {base : ℕ → Val} {n : ℕ → ℕ} {level w : ℕ} {srv start : BSPServer S Val}
  {out : List (Reply Val)} {sched : List ℕ}

/-! ## The epoch of the unit test -/

/-- The first epoch of `TestBSPServer.Consistency` on the server of key 0: two workers
that pull key 0 and push 1 to it, over and over. -/
def unittest : BSPEpoch (mapView ℤ (setMaxKeyAndChunkSize 3 9 2) 0) where
  workers := {0, 1}
  workers_nonempty := ⟨0, by simp⟩
  ts _ n := n
  ts_injective _ := Function.injective_id
  pull _ _ := ⟨0, Cell.words.put [0]⟩
  push _ _ := ⟨0, Cell.words.put [0] ++ Cell.vals.put [1]⟩
  pull_controlled _ _ := by decide
  push_controlled _ _ := by decide
  pull_ok _ _ _ := ⟨[0], [0], by simp [decodePull], by simp [mapView]⟩
  push_ok _ _ _ := ⟨[(0, 1)], by simp [decodePush, pairUp], by simp [mapView]⟩

/-- The server `CreateKVStore` makes for it. -/
def unittestServer : BSPServer (MapStore ℤ) ℤ := .new 0 2 ⟨fun _ => none⟩ false false

theorem idle_unittestServer :
    Idle (mapView ℤ (setMaxKeyAndChunkSize 3 9 2) 0) unittestServer :=
  ⟨rfl, rfl, rfl, rfl, rfl, trivial⟩

/-! ## Replies -/

theorem reply_src (x : ℕ × ℕ) : (E.reply kvId base x).src = x.1 := by
  simp only [reply]
  split <;> simp [pushReply, pullReply, Request.entry]

theorem reply_ts (x : ℕ × ℕ) : (E.reply kvId base x).ts = E.ts x.1 x.2 := by
  simp only [reply]
  split <;> simp [pushReply, pullReply, Request.entry]

/-- Sender and timestamp of a reply name the message it answers. -/
theorem reply_injective {x y : ℕ × ℕ}
    (h : ((E.reply kvId base x).src, (E.reply kvId base x).ts) =
      ((E.reply kvId base y).src, (E.reply kvId base y).ts)) : x = y := by
  simp only [reply_src, reply_ts, Prod.mk.injEq] at h
  obtain ⟨hw, hn⟩ := h
  rw [← hw] at hn
  exact Prod.ext hw (E.ts_injective x.1 hn)

/-- The replies sent so far, and the messages they answer. -/
theorem Reached.answered (h : E.Reached kvId start sched srv out) :
    ∃ level, Lists out (E.Answered (fun v => sched.count v) level)
      (E.reply kvId (V.view start.store)) := by
  rcases h with ⟨rfl, rfl, rfl⟩ | ⟨-, level, hinv⟩
  · refine ⟨0, lists_nil ?_⟩
    rintro x ⟨-, hlt, -⟩
    simp at hlt
  · exact ⟨level, hinv.contents.answered⟩

/-- The store holds pushes that have arrived, each once. -/
theorem Reached.applied (h : E.Reached kvId start sched srv out) :
    ∃ A : Finset (ℕ × ℕ), (∀ x ∈ A, x.1 ∈ E.workers ∧ 2 * x.2 + 2 < sched.count x.1) ∧
      ∀ j, V.Owned j →
        V.view srv.store j = V.view start.store j + ∑ x ∈ A, E.delta (x.1, 2 * x.2 + 2) j := by
  rcases h with ⟨rfl, rfl, rfl⟩ | ⟨-, level, hinv⟩
  · exact ⟨∅, by simp, by simp⟩
  · have hpush : ∀ x ∈ E.applied (fun v => sched.count v) level, 2 * (x.2 / 2 - 1) + 2 = x.2 := by
      intro x hx
      obtain ⟨-, -, heven, hpos, -⟩ := E.mem_applied.mp hx
      omega
    refine ⟨(E.applied (fun v => sched.count v) level).image fun x => (x.1, x.2 / 2 - 1), ?_, ?_⟩
    · intro y hy
      obtain ⟨x, hx, rfl⟩ := Finset.mem_image.mp hy
      obtain ⟨hw, -, -, -, hlt⟩ := E.mem_applied.mp hx
      exact ⟨hw, by simpa only [hpush x hx] using hlt⟩
    · intro j hj
      rw [hinv.contents.view_eq j hj, Finset.sum_image]
      · congr 1
        refine Finset.sum_congr rfl fun x hx => ?_
        rw [hpush x hx]
      · rintro x hx y hy hxy
        simp only [Prod.mk.injEq] at hxy
        have hx' := hpush x hx
        have hy' := hpush y hy
        exact Prod.ext hxy.1 (by omega)

/-- **Isolation.**  Whatever the order in which the messages of an epoch arrive, the
server takes them all; every reply answers a non-empty request that has arrived, and no
request is answered twice; the reply to a pull of iteration `k` carries the store at the
start of the epoch plus all workers' pushes of the iterations before `k`; and every push
in the store has arrived and is there once. -/
theorem isolation (kvId : ℕ) (hstart : Idle V start) (sched : List ℕ)
    (hsched : ∀ w ∈ sched, w ∈ E.workers) :
    ∃ srv out, run (BSPServer.process t) start (deliveries (E.stream kvId) sched) =
        some (srv, out) ∧
      (out.map fun r => (r.src, r.ts)).Nodup ∧
      (∀ r ∈ out, ∃ n < sched.count r.src, r.ts = E.ts r.src n ∧ (E.message r.src n).bin ≠ []) ∧
      (∀ w k, ∀ r ∈ out, r.src = w → r.ts = E.ts w (2 * k + 1) →
        ∃ keys touched, decodePull t (E.pull w k).cmd (E.pull w k).bin = some (keys, touched) ∧
          r.res = ⟨keys, touched.map fun key => V.view start.store key +
            ∑ v ∈ E.workers, ∑ j ∈ Finset.range k, E.delta (v, 2 * j + 2) key⟩) ∧
      ∃ A : Finset (ℕ × ℕ), (∀ x ∈ A, x.1 ∈ E.workers ∧ 2 * x.2 + 2 < sched.count x.1) ∧
        ∀ j, V.Owned j →
          V.view srv.store j = V.view start.store j + ∑ x ∈ A, E.delta (x.1, 2 * x.2 + 2) j := by
  obtain ⟨srv, out, hrun, hreached⟩ := reached_run kvId hstart sched hsched
  obtain ⟨level, hlists⟩ := hreached.answered
  refine ⟨srv, out, hrun, ?_, ?_, ?_, hreached.applied⟩
  · exact hlists.nodup_map (fun r => (r.src, r.ts)) fun x y _ _ hxy => reply_injective hxy
  · intro r hr
    obtain ⟨⟨w, n⟩, ⟨-, hlt, -, hbin⟩, rfl⟩ := hlists.mem_iff.mp hr
    rw [reply_ts, reply_src]
    exact ⟨n, hlt, rfl, hbin⟩
  · rintro w k r hr hsrc hts
    obtain ⟨⟨v, n⟩, ⟨-, -, -, hbin⟩, rfl⟩ := hlists.mem_iff.mp hr
    obtain rfl : v = w := by rw [← hsrc, reply_src]
    obtain rfl : n = 2 * k + 1 := by
      rw [reply_ts] at hts
      exact E.ts_injective v hts
    have hbody : (E.entry (v, 2 * k + 1)).bin = (E.pull v k).bin := by
      simp [entry, message_pull, Request.entry]
    have hcmd : (E.entry (v, 2 * k + 1)).cmd = (E.pull v k).cmd := by
      simp [entry, message_pull, Request.entry]
    rw [hbody] at hbin
    obtain ⟨keys, touched, hok⟩ := E.pull_ok v k hbin
    refine ⟨keys, touched, hok.decode, ?_⟩
    simp only [reply_pull, pullReply, hbody, hcmd, hok.decode, Option.getD_some]
    rfl

/-- Worker 0 runs ahead into iteration 1 before worker 1 has joined; its pull then waits
and sees both pushes of iteration 0. -/
theorem isolation_unittest : ∃ srv out,
    run (BSPServer.process (setMaxKeyAndChunkSize 3 9 2)) unittestServer
        (deliveries (unittest.stream 0) [0, 0, 0, 0, 1, 1, 1]) = some (srv, out) ∧
      (∃ r ∈ out, r.src = 0 ∧ r.ts = 3) ∧
      ∀ r ∈ out, r.src = 0 → r.ts = 3 → r.res = ⟨[0], [2]⟩ := by
  obtain ⟨srv, out, hrun, -, -, hpull, -⟩ :=
    isolation (E := unittest) 0 idle_unittestServer [0, 0, 0, 0, 1, 1, 1] (by decide)
  have hout : (run (BSPServer.process (setMaxKeyAndChunkSize 3 9 2)) unittestServer
      (deliveries (unittest.stream 0) [0, 0, 0, 0, 1, 1, 1])).map (fun s =>
        s.2.any fun r => r.src == 0 && r.ts == 3) = some true := rfl
  rw [hrun, Option.map_some, Option.some.injEq, List.any_eq_true] at hout
  refine ⟨srv, out, hrun, by simpa using hout, fun r hr hsrc hts => ?_⟩
  obtain ⟨keys, touched, hdecode, hres⟩ := hpull 0 1 r hr hsrc hts
  obtain ⟨rfl, rfl⟩ : [0] = keys ∧ [0] = touched := by
    simpa [unittest, decodePull] using hdecode
  rw [hres]
  decide

/-! ## Parked requests -/

omit [AddCommMonoid Val] in
/-- The entry of a message is in a buffer exactly when the message waits there. -/
theorem entry_mem_parks {buf : List (List (Blocked Val))} {P : ℕ → ℕ × ℕ → Prop}
    (h : Parks buf P E.entry) (x : ℕ × ℕ) :
    (∃ e, E.entry x ∈ slot buf e) ↔ ∃ e, P e x := by
  refine exists_congr fun e => ?_
  rw [(h e).mem_iff]
  constructor
  · rintro ⟨y, hy, hyx⟩
    rwa [← E.entry_injective hyx]
  · intro hx
    exact ⟨x, hx, rfl⟩

/-- A message waits while some worker has sent less than the messages before it. -/
theorem Inv.level_lt_iff (h : E.Inv kvId base n level srv out) {m : ℕ} (hm : 1 < m) :
    level < m ↔ ∃ v ∈ E.workers, n v < m := by
  constructor
  · intro hlt
    obtain ⟨v, hv, hvl⟩ := h.slowest.attained
    rw [joined] at hvl
    exact ⟨v, hv, by omega⟩
  · rintro ⟨v, hv, hvm⟩
    have := h.slowest.le v hv
    rw [joined] at this
    omega

theorem Inv.pull_parked_iff (h : E.Inv kvId base n level srv out) (hw : w ∈ E.workers) {k : ℕ}
    (hlt : 2 * k + 1 < n w) :
    (∃ e, E.entry (w, 2 * k + 1) ∈ slot srv.blockedPulls e) ↔
      1 ≤ k ∧ ∃ v ∈ E.workers, n v ≤ 2 * (k - 1) + 2 := by
  have hwait : (∃ e, 2 * k + 1 = 2 * e + 1 ∧ E.Waiting n level (w, 2 * k + 1)) ↔
      level < 2 * k + 1 :=
    ⟨fun ⟨_, _, _, _, hlevel⟩ => hlevel, fun hlevel => ⟨k, rfl, hw, hlt, hlevel⟩⟩
  refine (entry_mem_parks h.contents.pulls (w, 2 * k + 1)).trans (hwait.trans ?_)
  have hpos := h.level_pos
  by_cases hk : 1 ≤ k
  · rw [h.level_lt_iff (by omega), and_iff_right hk]
    refine exists_congr fun v => and_congr_right fun _ => ?_
    omega
  · refine iff_of_false ?_ fun hand => hk hand.1
    omega

theorem Inv.push_parked_iff (h : E.Inv kvId base n level srv out) (hw : w ∈ E.workers) {k : ℕ}
    (hlt : 2 * k + 2 < n w) :
    (∃ e, E.entry (w, 2 * k + 2) ∈ slot srv.blockedPushes e) ↔
      ∃ v ∈ E.workers, n v ≤ 2 * k + 1 := by
  have hwait : (∃ e, 2 * k + 2 = 2 * e + 2 ∧ E.Waiting n level (w, 2 * k + 2)) ↔
      level < 2 * k + 2 :=
    ⟨fun ⟨_, _, _, _, hlevel⟩ => hlevel, fun hlevel => ⟨k, rfl, hw, hlt, hlevel⟩⟩
  refine (entry_mem_parks h.contents.pushes (w, 2 * k + 2)).trans (hwait.trans ?_)
  rw [h.level_lt_iff (by omega)]
  refine exists_congr fun v => and_congr_right fun _ => ?_
  omega

/-- The iteration of the current phase is never complete: that would put every worker
past the level of the slowest one. -/
theorem Inv.phase_incomplete (h : E.Inv kvId base n level srv out) :
    ¬ (srv.replyPhase = false ∧ slot srv.pushCount srv.pushIter = E.workers.card) ∧
      ¬ (srv.replyPhase = true ∧ slot srv.pullCount srv.pullIter = E.workers.card) := by
  have hpos := h.level_pos
  have hphase := h.counters.replyPhase_eq
  have hslow := h.slowest.past_ne_card
  rw [past_joined _ _ hpos] at hslow
  constructor
  · rintro ⟨hreply, hcount⟩
    rw [hreply, eq_comm, decide_eq_false_iff_not] at hphase
    have hlevel : 2 * srv.pushIter + 2 = level := by
      rw [h.counters.pushIter_eq]
      omega
    rw [h.counters.pushCount_eq, hlevel] at hcount
    exact hslow hcount
  · rintro ⟨hreply, hcount⟩
    rw [hreply, eq_comm, decide_eq_true_eq] at hphase
    have hlevel : 2 * srv.pullIter + 1 = level := by
      rw [h.counters.pullIter_eq]
      omega
    rw [h.counters.pullCount_eq, hlevel] at hcount
    exact hslow hcount

/-- **No request is stranded.**  A pull of iteration `k` that has arrived is parked
exactly when `k` is positive and some worker's push of iteration `k - 1` has not arrived;
a push of iteration `k` that has arrived is parked exactly when some worker's pull of
iteration `k` has not arrived; and the server never sits in a phase whose iteration is
complete, where a server that has not yet seen the epoch's first message is one that was
just constructed. -/
theorem parked_iff (kvId : ℕ) (hstart : Idle V start) (sched : List ℕ)
    (hsched : ∀ w ∈ sched, w ∈ E.workers) :
    ∃ srv out, run (BSPServer.process t) start (deliveries (E.stream kvId) sched) =
        some (srv, out) ∧
      (∀ w k, 2 * k + 1 < sched.count w →
        ((∃ e, (E.message w (2 * k + 1)).entry ∈ slot srv.blockedPulls e) ↔
          1 ≤ k ∧ ∃ v ∈ E.workers, sched.count v ≤ 2 * (k - 1) + 2)) ∧
      (∀ w k, 2 * k + 2 < sched.count w →
        ((∃ e, (E.message w (2 * k + 2)).entry ∈ slot srv.blockedPushes e) ↔
          ∃ v ∈ E.workers, sched.count v ≤ 2 * k + 1)) ∧
      (sched ≠ [] ∨ start.pullCount = [] ∧ start.pushCount = [] →
        ¬ (srv.replyPhase = false ∧ slot srv.pushCount srv.pushIter = E.workers.card) ∧
        ¬ (srv.replyPhase = true ∧ slot srv.pullCount srv.pullIter = E.workers.card)) := by
  obtain ⟨srv, out, hrun, hreached⟩ := reached_run kvId hstart sched hsched
  refine ⟨srv, out, hrun, ?_⟩
  rcases hreached with ⟨rfl, rfl, rfl⟩ | ⟨-, level, hinv⟩
  · have hcard : 0 ≠ E.workers.card := (Finset.card_ne_zero.mpr E.workers_nonempty).symm
    refine ⟨by simp, by simp, ?_⟩
    rintro (hne | ⟨hpull, hpush⟩)
    · exact absurd rfl hne
    · simp only [hpull, hpush, slot_nil]
      exact ⟨fun h => hcard h.2, fun h => hcard h.2⟩
  · have hmember : ∀ {w i}, i < sched.count w → w ∈ E.workers := fun hlt =>
      hsched _ (List.count_pos_iff.mp (by omega))
    exact ⟨fun w k hlt => hinv.pull_parked_iff (hmember hlt) hlt,
      fun w k hlt => hinv.push_parked_iff (hmember hlt) hlt, fun _ => hinv.phase_incomplete⟩

/-- Worker 0's pull of iteration 1 is parked while worker 1 owes its push, and is not
once that push is in. -/
theorem parked_iff_unittest :
    (∃ srv out, run (BSPServer.process (setMaxKeyAndChunkSize 3 9 2)) unittestServer
        (deliveries (unittest.stream 0) [0, 0, 0, 0, 1, 1]) = some (srv, out) ∧
      ∃ e, (unittest.message 0 3).entry ∈ slot srv.blockedPulls e) ∧
    ∃ srv out, run (BSPServer.process (setMaxKeyAndChunkSize 3 9 2)) unittestServer
        (deliveries (unittest.stream 0) [0, 0, 0, 0, 1, 1, 1]) = some (srv, out) ∧
      ¬ ∃ e, (unittest.message 0 3).entry ∈ slot srv.blockedPulls e := by
  constructor
  · obtain ⟨srv, out, hrun, hpull, -⟩ :=
      parked_iff (E := unittest) 0 idle_unittestServer [0, 0, 0, 0, 1, 1] (by decide)
    exact ⟨srv, out, hrun, (hpull 0 1 (by decide)).mpr (by decide)⟩
  · obtain ⟨srv, out, hrun, hpull, -⟩ :=
      parked_iff (E := unittest) 0 idle_unittestServer [0, 0, 0, 0, 1, 1, 1] (by decide)
    exact ⟨srv, out, hrun, fun h => absurd ((hpull 0 1 (by decide)).mp h) (by decide)⟩

end BSPEpoch

end FlexPS.KVStore
