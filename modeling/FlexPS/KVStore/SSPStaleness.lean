import FlexPS.KVStore.SSPInvariant

/-!
# What the SSP server guarantees

The guarantees of an epoch, for every staleness, every number of workers, every mix of
pushes and pulls and every interleaving: what a pull sees when it is answered, where the
clock is, and which requests are parked.

## Main definitions

* `SSPEpoch.bounded_staleness` — what an answered pull contains.
* `SSPEpoch.clock_exact` — the clock, the parked requests and the store.
-/

namespace FlexPS.KVStore

open Lib

variable {S Val : Type} [StorageT S Val] {t : RangeTable} {serverId : ℕ} {isVector : Bool}

namespace SSPEpoch

/-! ## The epoch of the unit test -/

theorem unittestWorkers_nonempty : ({0, 1} : Finset ℕ).Nonempty := Finset.insert_nonempty 0 {1}

/-- `TestSSPServer.PullChunksWithMinClock` on the server of chunks 0 and 1, with pushes of
ones: two workers that pull chunks 0 and 1 with the min clock and push to them, over and
over, at staleness 1. -/
def unittest : SSPEpoch (mapView ℤ (setMaxKeyAndChunkSize 3 9 2) 0) where
  workers := {0, 1}
  workers_nonempty := unittestWorkers_nonempty
  staleness := 1
  ts _ n := n
  ts_injective _ := Function.injective_id
  isPush _ n := n % 2 == 1
  body _ n := if n % 2 = 1
    then ⟨1, Cell.words.put [0, 1] ++ Cell.vals.put [1, 1] ++ Cell.vals.put [1, 1]⟩
    else ⟨11, Cell.words.put [0, 1]⟩
  controlled _ n := by
    split <;> decide
  push_ok _ n hn _ := by
    rw [if_pos (by simpa using hn)]
    refine ⟨[(0, 1), (1, 1), (2, 1), (3, 1)], ?_, ?_⟩
    · decide
    · simp [mapView]
  pull_ok _ n hn _ := by
    rw [if_neg (by simpa using hn)]
    refine ⟨[0, 1], [0, 1, 2, 3], ?_, ?_⟩
    · decide
    · simp [mapView]

/-- The server `CreateKVStore` makes for it. -/
def unittestServer : SSPServer (MapStore ℤ) ℤ := .new 0 2 ⟨fun _ => none⟩ false 1

theorem idle_unittestServer : unittest.Idle unittestServer := ⟨rfl, rfl, rfl, rfl, trivial⟩

variable {V : StoreView S Val t serverId isVector} {E : SSPEpoch V} [AddCommMonoid Val]
  {kvId : ℕ} {base : ℕ → Val} {n : ℕ → ℕ} {m w : ℕ} {srv start : SSPServer S Val}
  {out : List (Reply Val)} {sched : List ℕ}

/-! ## What a pull sees -/

/-- At clock `m`, the store contains every push below the clock, of every worker. -/
theorem Inv.mem_applied_of_lt (h : E.Inv base n m srv) (hw : w ∈ E.workers) {c : ℕ} (hc : c < m) :
    ∃ i, E.IsPush w i ∧ E.clock (w, i) = c ∧ (w, i) ∈ E.applied n m := by
  obtain ⟨i, hpush, hclock, hlt⟩ := E.exists_push (lt_of_lt_of_le hc (h.slowest.le w hw))
  exact ⟨i, hpush, hclock, E.mem_applied.mpr ⟨hw, hlt, hpush, by omega⟩⟩

omit [AddCommMonoid Val] in
/-- A pull that can be answered sees the pushes its worker sent before it. -/
theorem Answered.mem_applied {i j : ℕ} (h : E.Answered n m (w, i)) (hj : j < i)
    (hpush : E.IsPush w j) : (w, j) ∈ E.applied n m := by
  obtain ⟨hw, hlt, hclock, -⟩ := h
  have hle : E.clock (w, j) ≤ E.clock (w, i) := Nat.count_monotone _ hj.le
  exact E.mem_applied.mpr ⟨hw, hj.trans hlt, hpush, hle.trans hclock⟩

/-- **Bounded staleness, read-my-writes and the min-clock guarantee.**  After any schedule,
let one more message arrive.  Every reply it causes to a pull, where the pull is request
`i` of worker `v` and `p` is the number of pushes `v` sent before it, carries the store at
the start of the epoch plus a set `A` of pushes that have arrived, each once, such that

* `A` contains the `p` pushes that `v` sent before the pull,
* `A` contains every push numbered below `p - s`, of every worker,
* `A` contains no push numbered above `min_clock_ + s`,
* for a pull with min clock, the clock sent is `min_clock_`, it is at least `p - s`, and `A`
  contains every push numbered below it.

The clock does not move between the first reply of a message and its last, so
`min_clock_` at the moment of the answer is the one the message leaves behind. -/
theorem bounded_staleness (kvId : ℕ) (hstart : E.Idle start) (sched : List ℕ)
    (hsched : ∀ v ∈ sched, v ∈ E.workers) (hw : w ∈ E.workers) :
    ∃ srv out srv' new, run (SSPServer.process t) start (deliveries (E.stream kvId) sched) =
        some (srv, out) ∧
      SSPServer.process t srv (E.stream kvId w (sched.count w)) = some (srv', new) ∧
      ∀ r ∈ new, ∀ v i, E.isPush v i = false → r.src = v → r.ts = E.ts v (i + 1) →
        ∃ keys touched, decodePull t (bodyCmd (E.body v i).cmd) (E.body v i).bin =
            some (keys, touched) ∧
        ∃ A : Finset (ℕ × ℕ), r.res = ⟨keys, touched.map fun key =>
            V.view start.store key + ∑ x ∈ A, E.delta x key⟩ ∧
          (∀ x ∈ A, x.1 ∈ E.workers ∧ E.IsPush x.1 x.2 ∧ x.2 < (sched ++ [w]).count x.1) ∧
          (∀ j < i + 1, E.IsPush v j → (v, j) ∈ A) ∧
          (∀ u ∈ E.workers, ∀ c, c + E.staleness < E.clock (v, i + 1) →
            ∃ j, E.IsPush u j ∧ E.clock (u, j) = c ∧ (u, j) ∈ A) ∧
          (∀ x ∈ A, E.clock x ≤ srv'.minClock + E.staleness) ∧
          ((E.body v i).cmd > withMinClockMagic → r.minClock = srv'.minClock ∧
            E.clock (v, i + 1) ≤ srv'.minClock + E.staleness ∧
            ∀ u ∈ E.workers, ∀ c < srv'.minClock,
              ∃ j, E.IsPush u j ∧ E.clock (u, j) = c ∧ (u, j) ∈ A) := by
  obtain ⟨srv, out, hrun, hreached⟩ := reached_run kvId hstart sched hsched
  obtain ⟨srv', new, hprocess, -, m, m', hstep⟩ := reached_step kvId hstart hw hreached
  refine ⟨srv, out, srv', new, hrun, hprocess, ?_⟩
  rintro r hr v i hpull hsrc hts
  obtain ⟨x, ⟨hanswered, -⟩, rfl⟩ := hstep.replies.mem_iff.mp hr
  obtain rfl : x = (v, i + 1) := by
    refine E.key_injective ?_
    rw [← E.reply_key kvId (V.view start.store) _ m' x]
    exact Prod.ext hsrc hts
  have hnot : ¬ E.IsPush v (i + 1) := by simp [hpull]
  obtain ⟨keys, touched, hok⟩ := E.pull_ok v i hpull hanswered.2.2.2
  have hminClock : srv'.minClock = m' := hstep.inv.counters.minClock_eq
  have hclock : E.clock (v, i + 1) ≤ m' + E.staleness := hanswered.2.2.1
  refine ⟨keys, touched, hok.decode, E.applied (fun v => (sched ++ [w]).count v) m', ?_, ?_, ?_,
    ?_, ?_, ?_⟩
  · have hdecode : decodePull t (bodyCmd (E.entry (v, i + 1)).cmd) (E.entry (v, i + 1)).bin =
        some (keys, touched) := hok.decode
    rw [E.reply_of_pull kvId _ _ m' (x := (v, i + 1)) (Nat.succ_pos i) hnot]
    simp only [pullReply, hdecode, Option.getD_some]
    rfl
  · intro x hx
    obtain ⟨hw, hlt, hpush, -⟩ := E.mem_applied.mp hx
    exact ⟨hw, hpush, hlt⟩
  · exact fun j hj hpush => hanswered.mem_applied hj hpush
  · exact fun u hu c hc => hstep.inv.mem_applied_of_lt hu (by omega)
  · rw [hminClock]
    exact fun x hx => (E.mem_applied.mp hx).2.2.2
  · rw [hminClock]
    intro hcmd
    refine ⟨?_, hclock, fun u hu c hc => hstep.inv.mem_applied_of_lt hu hc⟩
    have hcmd' : (E.entry (v, i + 1)).cmd > withMinClockMagic := hcmd
    rw [E.reply_of_pull kvId _ _ m' (x := (v, i + 1)) (Nat.succ_pos i) hnot]
    simp [pullReply, sentClock, hcmd']

/-- Worker 0 pushes twice and then pulls, two pushes ahead of worker 1, so the pull waits;
worker 1's first push releases it, with clock 1 and all three pushes in it. -/
theorem bounded_staleness_unittest : ∃ srv out srv' new,
    run (SSPServer.process (setMaxKeyAndChunkSize 3 9 2)) unittestServer
        (deliveries (unittest.stream 0) [0, 0, 0, 0, 0, 0, 1, 1]) = some (srv, out) ∧
      SSPServer.process (setMaxKeyAndChunkSize 3 9 2) srv (unittest.stream 0 1 2) =
        some (srv', new) ∧
      (∃ r ∈ new, r.src = 0 ∧ r.ts = 5) ∧
      ∀ r ∈ new, r.src = 0 → r.ts = 5 → r.minClock = srv'.minClock ∧
        unittest.clock (0, 5) ≤ srv'.minClock + 1 := by
  obtain ⟨srv, out, srv', new, hrun, hprocess, hreply⟩ :=
    bounded_staleness (E := unittest) (w := 1) 0 idle_unittestServer
      [0, 0, 0, 0, 0, 0, 1, 1] (by decide) (by decide)
  have hnew : ((run (SSPServer.process (setMaxKeyAndChunkSize 3 9 2)) unittestServer
      (deliveries (unittest.stream 0) [0, 0, 0, 0, 0, 0, 1, 1])).bind fun s =>
        (SSPServer.process (setMaxKeyAndChunkSize 3 9 2) s.1
          (unittest.stream 0 1 ([0, 0, 0, 0, 0, 0, 1, 1].count 1))).map fun s =>
            s.2.any fun r => r.src == 0 && r.ts == 5) = some true := rfl
  rw [hrun, Option.bind_some, hprocess, Option.map_some, Option.some.injEq, List.any_eq_true] at hnew
  refine ⟨srv, out, srv', new, hrun, hprocess, by simpa using hnew, fun r hr hsrc hts => ?_⟩
  obtain ⟨keys, touched, -, A, -, -, -, -, -, hclock⟩ := hreply r hr 0 4 rfl hsrc hts
  obtain ⟨hsent, hle, -⟩ := hclock (by decide)
  exact ⟨hsent, hle⟩

/-! ## The clock and the parked requests -/

omit [AddCommMonoid Val] in
/-- The entry of a message is in a buffer exactly when the message waits there. -/
theorem entry_mem_parks {buf : List (List (Blocked Val))} {P : ℕ → ℕ × ℕ → Prop}
    (h : Parks buf P E.entry) (x : ℕ × ℕ) :
    (∃ e, E.entry x ∈ slot buf e) ↔ ∃ e, P e x := by
  refine exists_congr fun e => ?_
  rw [(h e).mem_iff]
  constructor
  · rintro ⟨y, hy, hyx⟩
    rwa [← E.entry_injective hyx]
  · intro hx
    exact ⟨x, hx, rfl⟩

theorem Inv.push_parked_iff (h : E.Inv base n m srv) (hw : w ∈ E.workers) {i : ℕ}
    (hpush : E.IsPush w i) (hlt : i < n w) :
    (∃ e, E.entry (w, i) ∈ slot srv.blockedPushes e) ↔ m + E.staleness < E.clock (w, i) := by
  rw [entry_mem_parks h.contents.pushes]
  constructor
  · rintro ⟨e, -, -, -, -, hclock⟩
    exact hclock
  · intro hclock
    exact ⟨E.clock (w, i) - E.staleness, hpush, by omega, hw, hlt, hclock⟩

theorem Inv.pull_parked_iff (h : E.Inv base n m srv) (hw : w ∈ E.workers) {i : ℕ}
    (hpull : ¬ E.IsPush w i) (hlt : i < n w) :
    (∃ e, E.entry (w, i) ∈ slot srv.blockedPulls e) ↔ m + E.staleness < E.clock (w, i) := by
  rw [entry_mem_parks h.contents.pulls]
  constructor
  · rintro ⟨e, -, -, -, -, hclock⟩
    exact hclock
  · intro hclock
    exact ⟨E.clock (w, i) - E.staleness, hpull, by omega, hw, hlt, hclock⟩

/-- Nothing is parked at or below the clock. -/
theorem Inv.released (h : E.Inv base n m srv) {e : ℕ} (he : e ≤ m) :
    slot srv.blockedPushes e = [] ∧ slot srv.blockedPulls e = [] := by
  constructor
  · refine (h.contents.pushes e).eq_nil ?_
    rintro x ⟨-, hclock, -, -, hlt⟩
    omega
  · refine (h.contents.pulls e).eq_nil ?_
    rintro x ⟨-, hclock, -, -, hlt⟩
    omega

omit [AddCommMonoid Val] in
/-- A message has a reply exactly when it can be answered. -/
theorem replied_iff (h : Lists (out.map fun r => (r.src, r.ts)) (E.Answered n m) E.key) {i : ℕ} :
    (∃ r ∈ out, r.src = w ∧ r.ts = E.ts w i) ↔ E.Answered n m (w, i) := by
  have hmem := h.mem_iff (b := E.key (w, i))
  simp only [List.mem_map, key, Prod.mk.injEq] at hmem
  rw [hmem]
  constructor
  · rintro ⟨x, hx, hkey⟩
    rwa [← E.key_injective (Prod.ext hkey.1 hkey.2 : E.key x = E.key (w, i))]
  · intro hx
    exact ⟨_, hx, rfl, rfl⟩

/-- **The clock is exact and no request is stranded.**  After any schedule:

* a push numbered `c` that has arrived is parked exactly when `c - s > min_clock_`, and
  the store holds exactly the others;
* a pull that has arrived, sent after `p` pushes, is parked exactly when
  `p - s > min_clock_`, and a non-empty one has been answered exactly when it is not;
* if an epoch has begun, or the server was just constructed, then `min_clock_` is the
  least number of pushes that have arrived from a worker, and nothing is parked at or
  below it;
* a push that would be processed next finds `min_clock_` in range of `clock_count_`. -/
theorem clock_exact (kvId : ℕ) (hstart : E.Idle start) (sched : List ℕ)
    (hsched : ∀ v ∈ sched, v ∈ E.workers) :
    ∃ srv out, run (SSPServer.process t) start (deliveries (E.stream kvId) sched) =
        some (srv, out) ∧
      (∀ v i, E.IsPush v i → i < sched.count v →
        ((∃ e, (E.message v i).entry ∈ slot srv.blockedPushes e) ↔
          (E.clock (v, i) : ℤ) - E.staleness > srv.minClock)) ∧
      (∀ j, V.Owned j → V.view srv.store j = V.view start.store j +
        ∑ x ∈ arrived E.workers fun v => sched.count v,
          if E.IsPush x.1 x.2 ∧ (E.clock x : ℤ) - E.staleness ≤ srv.minClock
            then E.delta x j else 0) ∧
      (∀ v i, E.isPush v i = false → i + 1 < sched.count v →
        ((∃ e, (E.message v (i + 1)).entry ∈ slot srv.blockedPulls e) ↔
          (E.clock (v, i + 1) : ℤ) - E.staleness > srv.minClock) ∧
        ((E.body v i).bin ≠ [] → ((∃ r ∈ out, r.src = v ∧ r.ts = E.ts v (i + 1)) ↔
          ¬ (E.clock (v, i + 1) : ℤ) - E.staleness > srv.minClock))) ∧
      (sched ≠ [] ∨ start.minClock = 0 ∧ start.blockedPushes = [] ∧ start.blockedPulls = [] →
        srv.minClock = E.workers.inf' E.workers_nonempty (fun v => E.clock (v, sched.count v)) ∧
        ∀ e ≤ srv.minClock, slot srv.blockedPushes e = [] ∧ slot srv.blockedPulls e = []) ∧
      (∀ w ∈ E.workers, E.IsPush w (sched.count w) →
        srv.minClock < (modifyAt srv.clockCount (slot srv.workerProgress w) (· + 1)).length) := by
  obtain ⟨srv, out, hrun, hreached⟩ := reached_run kvId hstart sched hsched
  refine ⟨srv, out, hrun, ?_⟩
  rcases hreached with ⟨rfl, rfl, rfl⟩ | ⟨-, m, hinv, hout⟩
  · refine ⟨by simp, ?_, by simp, ?_, ?_⟩
    · intro j _
      have harrived : arrived E.workers (fun v => ([] : List ℕ).count v) = ∅ := by
        ext x
        simp
      rw [harrived, Finset.sum_empty, add_zero]
    · rintro (hne | ⟨hclock, hpushes, hpulls⟩)
      · exact absurd rfl hne
      · rw [hpushes, hpulls]
        refine ⟨?_, fun e _ => ⟨rfl, rfl⟩⟩
        rw [hclock, eq_comm, ← slowest_iff_inf']
        obtain ⟨v, hv⟩ := E.workers_nonempty
        exact ⟨fun _ _ => Nat.zero_le _, v, hv, E.clock_zero v⟩
    · intro w _ hpush
      exact absurd hpush (E.not_isPush_zero w)
  · have hmember : ∀ {w i}, i < sched.count w → w ∈ E.workers := fun hlt =>
      hsched _ (List.count_pos_iff.mp (by omega))
    have hclock : srv.minClock = m := hinv.counters.minClock_eq
    simp only [hclock]
    refine ⟨?_, ?_, ?_, fun _ => ⟨?_, fun e he => hinv.released he⟩, ?_⟩
    · intro v i hpush hlt
      refine (hinv.push_parked_iff (hmember hlt) hpush hlt).trans ?_
      omega
    · intro j hj
      rw [hinv.contents.view_eq j hj, held, applied, Finset.sum_filter]
      congr 1
      refine Finset.sum_congr rfl fun x _ => if_congr ?_ rfl rfl
      refine and_congr_right fun _ => ?_
      omega
    · intro v i hpull hlt
      have hnot : ¬ E.IsPush v (i + 1) := by simp [hpull]
      refine ⟨(hinv.pull_parked_iff (hmember hlt) hnot hlt).trans (by omega), fun hbin => ?_⟩
      rw [replied_iff hout]
      constructor
      · rintro ⟨-, -, hle, -⟩
        omega
      · intro hle
        exact ⟨hmember hlt, hlt, by omega, hbin⟩
    · rw [eq_comm, ← slowest_iff_inf']
      exact hinv.slowest
    · intro w hw _
      have := hinv.slowest.le w hw
      rw [length_modifyAt, hinv.counters.workerProgress_eq w hw]
      omega

/-- While worker 1 has not pushed, worker 0's pull after two pushes is parked and the clock
is 0; worker 1's first push moves the clock to 1 and releases the pull. -/
theorem clock_exact_unittest :
    (∃ srv out, run (SSPServer.process (setMaxKeyAndChunkSize 3 9 2)) unittestServer
        (deliveries (unittest.stream 0) [0, 0, 0, 0, 0, 0, 1, 1]) = some (srv, out) ∧
      srv.minClock = 0 ∧ ∃ e, (unittest.message 0 5).entry ∈ slot srv.blockedPulls e) ∧
    ∃ srv out, run (SSPServer.process (setMaxKeyAndChunkSize 3 9 2)) unittestServer
        (deliveries (unittest.stream 0) [0, 0, 0, 0, 0, 0, 1, 1, 1]) = some (srv, out) ∧
      srv.minClock = 1 ∧ ∃ r ∈ out, r.src = 0 ∧ r.ts = 5 := by
  constructor
  · obtain ⟨srv, out, hrun, -, -, hpull, hclock, -⟩ :=
      clock_exact (E := unittest) 0 idle_unittestServer [0, 0, 0, 0, 0, 0, 1, 1]
        (by decide)
    have hmin : srv.minClock = 0 := (hclock (Or.inl (by decide))).1.trans (by decide)
    refine ⟨srv, out, hrun, hmin, (hpull 0 4 rfl (by decide)).1.mpr ?_⟩
    rw [hmin]
    decide
  · obtain ⟨srv, out, hrun, -, -, hpull, hclock, -⟩ :=
      clock_exact (E := unittest) 0 idle_unittestServer [0, 0, 0, 0, 0, 0, 1, 1, 1]
        (by decide)
    have hmin : srv.minClock = 1 := (hclock (Or.inl (by decide))).1.trans (by decide)
    refine ⟨srv, out, hrun, hmin, ((hpull 0 4 rfl (by decide)).2 (by decide)).mpr ?_⟩
    rw [hmin]
    decide

end SSPEpoch

end FlexPS.KVStore
