import FlexPS.KVStore.SSPStaleness

/-!
# How far two replies of the SSP server are apart

A worker that waits for the reply of a pull before it sends more is held at the clock of that pull.
When the reply is sent the clock of the server is therefore not above the clock of the pull, and not
more than the staleness below it; this bounds the number of pushes of every other worker in the
store from both sides.

## Main definitions

* `SSPEpoch.Waits` — a worker sends nothing while a pull of it has no reply.
* `SSPEpoch.Seen` — what a reply to a pull contains.
* `SSPEpoch.divergence` — the bound.
-/

namespace FlexPS.KVStore

open Lib

namespace SSPEpoch

variable {S Val : Type} [StorageT S Val] {t : RangeTable} {serverId : ℕ} {isVector : Bool}
  {V : StoreView S Val t serverId isVector} {E : SSPEpoch V} {n : ℕ → ℕ} {m w i : ℕ}

/-! ## Who has how many pushes in the store -/

/-- How many pushes of a worker are in the store. -/
def appliedOf (E : SSPEpoch V) (n : ℕ → ℕ) (m w : ℕ) : ℕ :=
  min (E.progress n w) (m + E.staleness + 1)

/-- The pushes in the store, worker by worker. -/
theorem card_applied (E : SSPEpoch V) (n : ℕ → ℕ) (m : ℕ) :
    (E.applied n m).card = ∑ w ∈ E.workers, E.appliedOf n m w := by
  have hworker : ∀ x ∈ E.applied n m, x.1 ∈ E.workers := fun x hx => (E.mem_applied.mp hx).1
  rw [Finset.card_eq_sum_card_fiberwise hworker]
  refine Finset.sum_congr rfl fun w hw => ?_
  have hfiber : ((E.applied n m).filter fun x => x.1 = w) =
      ((Finset.range (n w)).filter fun i => E.IsPush w i ∧
        Nat.count (E.IsPush w) i ≤ m + E.staleness).image fun i => (w, i) := by
    ext ⟨v, i⟩
    simp only [Finset.mem_filter, E.mem_applied, Finset.mem_image, Finset.mem_range, clock,
      Prod.mk.injEq]
    constructor
    · rintro ⟨⟨-, hlt, hpush, hclock⟩, rfl⟩
      exact ⟨i, ⟨hlt, hpush, hclock⟩, rfl, rfl⟩
    · rintro ⟨j, ⟨hlt, hpush, hclock⟩, rfl, rfl⟩
      exact ⟨⟨hw, hlt, hpush, hclock⟩, rfl⟩
  rw [hfiber, Finset.card_image_of_injective _ (Prod.mk_right_injective w)]
  exact card_filter_count_le (E.IsPush w) (n w) (m + E.staleness)

/-- A pull can be answered, and its worker has sent nothing after it. -/
structure Last (E : SSPEpoch V) (n : ℕ → ℕ) (m w i : ℕ) : Prop where
  slowest : Slowest E.workers (E.progress n) m
  answered : E.Answered n m (w, i + 1)
  pull : E.isPush w i = false
  last : n w = i + 2

/-- The worker of such a pull has made no progress since. -/
theorem Last.progress_eq (h : E.Last n m w i) : E.progress n w = E.clock (w, i + 1) := by
  have hnot : ¬ E.IsPush w (i + 1) := by simp [h.pull]
  rw [progress, h.last, clock, Nat.count_succ, if_neg hnot]
  rfl

/-- All pushes of its worker are in the store. -/
theorem Last.appliedOf_self (h : E.Last n m w i) :
    E.appliedOf n m w = E.clock (w, i + 1) := by
  have hclock := h.answered.2.2.1
  rw [appliedOf, h.progress_eq]
  omega

/-- Every other worker has at most `s` pushes less and `s + 1` pushes more in the store. -/
theorem Last.appliedOf_bounds (h : E.Last n m w i) {u : ℕ} (hu : u ∈ E.workers) :
    E.appliedOf n m u ≤ E.clock (w, i + 1) + E.staleness + 1 ∧
      E.clock (w, i + 1) ≤ E.appliedOf n m u + E.staleness := by
  have hclock := h.answered.2.2.1
  have hm := h.slowest.le w h.answered.1
  have hmu := h.slowest.le u hu
  rw [h.progress_eq] at hm
  unfold appliedOf
  omega

/-! ## Workers that wait -/

variable [AddCommMonoid Val] {kvId : ℕ} {start : SSPServer S Val} {sched : List ℕ}
  {out : List (Reply Val)} {r : Reply Val}

/-- Every worker waits for the reply of each of its non-empty pulls before it sends more. -/
def Waits (E : SSPEpoch V) (kvId : ℕ) (start : SSPServer S Val) (sched : List ℕ) : Prop :=
  ∀ j w, sched[j]? = some w → ∀ srv out,
    run (SSPServer.process t) start (deliveries (E.stream kvId) (sched.take j)) = some (srv, out) →
    ∀ i, i + 1 < (sched.take j).count w → E.isPush w i = false → (E.body w i).bin ≠ [] →
      ∃ r ∈ out, r.src = w ∧ r.ts = E.ts w (i + 1)

/-- The reply to a pull carries the store at a moment when its worker had sent nothing more. -/
def Seen (E : SSPEpoch V) (start : SSPServer S Val) (w i : ℕ) (r : Reply Val) : Prop :=
  ∃ n m, E.Last n m w i ∧ ∃ keys touched,
    decodePull t (bodyCmd (E.body w i).cmd) (E.body w i).bin = some (keys, touched) ∧
    r.res = ⟨keys, touched.map (E.held (V.view start.store) n m)⟩

/-- No request has two replies. -/
theorem Reached.nodup {srv : SSPServer S Val} (h : E.Reached start sched srv out) :
    (out.map fun r => (r.src, r.ts)).Nodup := by
  rcases h with ⟨-, -, rfl⟩ | ⟨-, m, -, hout⟩
  · exact List.nodup_nil
  · obtain ⟨items, hnodup, -, heq⟩ := hout
    rw [heq]
    exact hnodup.map E.key_injective

/-- A schedule in which the workers wait, cut short. -/
theorem Waits.init (h : E.Waits kvId start (sched ++ [w])) : E.Waits kvId start sched := by
  intro j v hj srv out hrun i hlt
  have hjlt := (List.getElem?_eq_some_iff.mp hj).1
  have htake : (sched ++ [w]).take j = sched.take j := List.take_append_of_le_length hjlt.le
  refine h j v ?_ srv out ?_ i ?_
  · rwa [List.getElem?_append_left hjlt]
  · rwa [htake]
  · rwa [htake]

/-- What has been replied after some more of the schedule. -/
def Extends (E : SSPEpoch V) (kvId : ℕ) (start : SSPServer S Val) (sched : List ℕ)
    (out : List (Reply Val)) : Prop :=
  ∀ j srv₁ out₁, run (SSPServer.process t) start (deliveries (E.stream kvId) (sched.take j)) =
    some (srv₁, out₁) → ∀ r ∈ out₁, r ∈ out

/-- **The replies of workers that wait**: a new reply finds its worker where it was. -/
theorem Step.last {u : ℕ} {srv' : SSPServer S Val} {new : List (Reply Val)} {n : ℕ → ℕ}
    {m m' : ℕ} (hwaits : E.Waits kvId start (sched ++ [u])) (hstart : E.Idle start)
    (hsched : ∀ v ∈ sched, v ∈ E.workers) (hext : E.Extends kvId start sched out)
    (hnodup : ((out ++ new).map fun r => (r.src, r.ts)).Nodup)
    (hstep : E.Step kvId (V.view start.store) n m (fun v => (sched ++ [u]).count v) m' srv' new)
    (hr : r ∈ new) (hpull : E.isPush w i = false) (hsrc : r.src = w) (hts : r.ts = E.ts w (i + 1)) :
    E.Last (fun v => (sched ++ [u]).count v) m' w i ∧
      r = E.reply kvId (V.view start.store) (fun v => (sched ++ [u]).count v) m' (w, i + 1) := by
  obtain ⟨x, ⟨hanswered, -⟩, rfl⟩ := hstep.replies.mem_iff.mp hr
  obtain rfl : x = (w, i + 1) := by
    refine E.key_injective ?_
    rw [← E.reply_key kvId (V.view start.store) _ m' x]
    exact Prod.ext hsrc hts
  refine ⟨⟨hstep.inv.slowest, hanswered, hpull, ?_⟩, rfl⟩
  by_contra hlast
  have hlt : i + 2 < (sched ++ [u]).count w := by
    have := hanswered.2.1
    simp only at this hlast
    omega
  -- the next message of the worker came after a reply to the pull
  obtain ⟨j, hj, hcount⟩ := exists_take_count hlt
  have hle : j ≤ sched.length := by
    have := (List.getElem?_eq_some_iff.mp hj).1
    simp at this
    omega
  have htake : (sched ++ [u]).take j = sched.take j := List.take_append_of_le_length hle
  obtain ⟨srv₁, out₁, hrun₁, -⟩ := reached_run kvId hstart (sched.take j)
    fun v hv => hsched v (List.mem_of_mem_take hv)
  obtain ⟨r', hr', hsrc', hts'⟩ := hwaits j w hj srv₁ out₁ (by rwa [htake]) i (by omega) hpull
    hanswered.2.2.2
  rw [List.map_append] at hnodup
  refine (List.nodup_append.mp hnodup).2.2 _ (List.mem_map_of_mem (hext j srv₁ out₁ hrun₁ r' hr')) _
    (List.mem_map_of_mem hr) ?_
  rw [hsrc', hts', hsrc, hts]

/-- **Every reply to a pull is seen** as soon as the pull can be answered. -/
theorem seen_run (kvId : ℕ) (hstart : E.Idle start) (sched : List ℕ)
    (hsched : ∀ v ∈ sched, v ∈ E.workers) (hwaits : E.Waits kvId start sched) :
    ∃ srv out, run (SSPServer.process t) start (deliveries (E.stream kvId) sched) =
        some (srv, out) ∧ E.Reached start sched srv out ∧ E.Extends kvId start sched out ∧
      ∀ w i, E.isPush w i = false → ∀ r ∈ out, r.src = w → r.ts = E.ts w (i + 1) →
        E.Seen start w i r := by
  induction sched using List.reverseRecOn with
  | nil =>
      refine ⟨start, [], rfl, Or.inl ⟨rfl, rfl, rfl⟩, ?_, fun _ _ _ r hr => nomatch hr⟩
      intro j srv₁ out₁ hrun r hr
      rw [List.take_nil] at hrun
      obtain ⟨-, rfl⟩ := Prod.mk.inj (Option.some.inj hrun)
      exact hr
  | append_singleton sched u ih =>
      have hmem : ∀ v ∈ sched, v ∈ E.workers := fun v hv => hsched v (by simp [hv])
      obtain ⟨srv, out, hrun, hreached, hext, hseen⟩ := ih hmem hwaits.init
      obtain ⟨srv', new, hprocess, hreached', m, m', hstep⟩ :=
        reached_step kvId hstart (hsched u (by simp)) hreached
      have hrun' : run (SSPServer.process t) start (deliveries (E.stream kvId) (sched ++ [u])) =
          some (srv', out ++ new) := by
        rw [deliveries_snoc]
        exact run_snoc hrun hprocess
      refine ⟨srv', out ++ new, hrun', hreached', ?_, fun w i hpull r hr hsrc hts => ?_⟩
      · intro j srv₁ out₁ hrun₁ r hr
        rcases Nat.lt_or_ge sched.length j with hj | hj
        · rw [List.take_of_length_le (by simpa using hj), hrun'] at hrun₁
          obtain ⟨-, rfl⟩ := Prod.mk.inj (Option.some.inj hrun₁)
          exact hr
        · rw [List.take_append_of_le_length hj] at hrun₁
          exact List.mem_append_left _ (hext j srv₁ out₁ hrun₁ r hr)
      · rcases List.mem_append.mp hr with hr | hr
        · exact hseen w i hpull r hr hsrc hts
        · obtain ⟨hlast, rfl⟩ := hstep.last hwaits hstart hmem hext hreached'.nodup hr hpull hsrc hts
          obtain ⟨keys, touched, hok⟩ := E.pull_ok w i hpull hlast.answered.2.2.2
          refine ⟨_, m', hlast, keys, touched, hok.decode, ?_⟩
          have hdecode : decodePull t (bodyCmd (E.entry (w, i + 1)).cmd)
              (E.entry (w, i + 1)).bin = some (keys, touched) := hok.decode
          have hnot : ¬ E.IsPush w (i + 1) := by simp [hpull]
          rw [E.reply_of_pull kvId _ _ m' (x := (w, i + 1)) (Nat.succ_pos i) hnot]
          simp only [pullReply, hdecode, Option.getD_some]

end SSPEpoch

/-! ## Two replies -/

namespace SSPEpoch

variable {S Val : Type} [StorageT S Val] {t : RangeTable} {serverId : ℕ} {isVector : Bool}
  {V : StoreView S Val t serverId isVector} {E : SSPEpoch V} {kvId : ℕ} {start : SSPServer S Val}
  {sched : List ℕ}

/-- The value that the reply to a pull has for a key. -/
def ReplyValue (E : SSPEpoch V) (w i : ℕ) (r : Reply Val) (key : ℕ) (x : Val) : Prop :=
  ∃ (keys touched : List ℕ) (j : ℕ),
    decodePull t (bodyCmd (E.body w i).cmd) (E.body w i).bin = some (keys, touched) ∧
    touched[j]? = some key ∧ r.res.vals[j]? = some x

variable [Ring Val] [LinearOrder Val] [IsStrictOrderedRing Val]

omit [LinearOrder Val] [IsStrictOrderedRing Val] in
/-- The value of a key counts the pushes. -/
theorem Seen.value {w i key : ℕ} {r : Reply Val} {x : Val} (h : E.Seen start w i r)
    (hone : ∀ v j, v ∈ E.workers → E.IsPush v j → E.delta (v, j) key = 1)
    (hx : E.ReplyValue w i r key x) : ∃ n m, E.Last n m w i ∧
      x = V.view start.store key + (∑ u ∈ E.workers, E.appliedOf n m u : ℕ) := by
  obtain ⟨n, m, hlast, keys, touched, hdecode, hres⟩ := h
  obtain ⟨keys', touched', j, hdecode', hkey, hval⟩ := hx
  obtain ⟨rfl, rfl⟩ := Prod.mk.inj (Option.some.inj (hdecode.symm.trans hdecode'))
  refine ⟨n, m, hlast, ?_⟩
  rw [hres, List.getElem?_map, hkey, Option.map_some] at hval
  obtain rfl := Option.some.inj hval
  have hdelta : ∀ x ∈ E.applied n m, E.delta x key = 1 := by
    intro x hx
    obtain ⟨hw, -, hpush, -⟩ := E.mem_applied.mp hx
    exact hone x.1 x.2 hw hpush
  rw [held, Finset.sum_congr rfl hdelta, Finset.sum_const, nsmul_eq_mul, mul_one, E.card_applied]

/-- **The SSP workers do not diverge.**  If every push adds one to a key and every worker waits for
the replies of its pulls, then the replies to two pulls of that key, each sent after as many pushes
of its sender, differ by at most `(N - 1) * (2 * s + 1)`. -/
theorem divergence (kvId : ℕ) (hstart : E.Idle start) (sched : List ℕ)
    (hsched : ∀ v ∈ sched, v ∈ E.workers) (hwaits : E.Waits kvId start sched) (key : ℕ)
    (hone : ∀ v j, v ∈ E.workers → E.IsPush v j → E.delta (v, j) key = 1) :
    ∃ srv out, run (SSPServer.process t) start (deliveries (E.stream kvId) sched) =
        some (srv, out) ∧
      ∀ w w' i i', E.isPush w i = false → E.isPush w' i' = false →
        E.clock (w, i + 1) = E.clock (w', i' + 1) →
        ∀ r ∈ out, r.src = w → r.ts = E.ts w (i + 1) → ∀ r' ∈ out, r'.src = w' →
        r'.ts = E.ts w' (i' + 1) → ∀ x x', E.ReplyValue w i r key x → E.ReplyValue w' i' r' key x' →
        |x - x'| ≤ ((E.workers.card - 1) * (2 * E.staleness + 1) : ℕ) := by
  obtain ⟨srv, out, hrun, -, -, hseen⟩ := seen_run kvId hstart sched hsched hwaits
  refine ⟨srv, out, hrun, ?_⟩
  intro w w' i i' hpull hpull' hclock r hr hsrc hts r' hr' hsrc' hts' x x' hx hx'
  obtain ⟨n, m, hlast, rfl⟩ := (hseen w i hpull r hr hsrc hts).value hone hx
  obtain ⟨n', m', hlast', rfl⟩ := (hseen w' i' hpull' r' hr' hsrc' hts').value hone hx'
  have hself := hlast.appliedOf_self
  have hself' := hlast'.appliedOf_self
  rw [← hclock] at hself'
  have hbounds : ∀ u ∈ E.workers, _ := fun u hu => hlast.appliedOf_bounds hu
  have hbounds' : ∀ u ∈ E.workers, _ := fun u hu => hlast'.appliedOf_bounds hu
  rw [← hclock] at hbounds'
  have hle := sum_le_sum_add hlast.answered.1 hlast'.answered.1 hself hself'
    (fun u hu => (hbounds u hu).1) fun u hu => (hbounds' u hu).2
  have hle' := sum_le_sum_add hlast'.answered.1 hlast.answered.1 hself' hself
    (fun u hu => (hbounds' u hu).1) fun u hu => (hbounds u hu).2
  rw [add_sub_add_left_eq_sub, abs_sub_le_iff, sub_le_iff_le_add', sub_le_iff_le_add']
  exact ⟨by exact_mod_cast hle, by exact_mod_cast hle'⟩

/-- Every push of the unit test adds one to key 0. -/
theorem delta_unittest (w j : ℕ) (hpush : unittest.IsPush w j) : unittest.delta (w, j) 0 = 1 := by
  obtain ⟨hpos, hodd⟩ := hpush
  obtain ⟨n, rfl⟩ := Nat.exists_eq_succ_of_ne_zero hpos.ne'
  have hbody : unittest.body w n =
      ⟨1, Cell.words.put [0, 1] ++ Cell.vals.put [1, 1] ++ Cell.vals.put [1, 1]⟩ :=
    if_pos (by simpa [unittest] using hodd)
  have hdecode : decodePush (setMaxKeyAndChunkSize 3 9 2) 1
      (Cell.words.put [0, 1] ++ Cell.vals.put [1, 1] ++ Cell.vals.put [1, 1] : BinStream ℤ) =
      some [(0, 1), (1, 1), (2, 1), (3, 1)] := by decide
  simp only [delta, entry, message, Request.entry, Blocked.pairs, hbody, hdecode]
  rfl

/-- Worker 0 pulls before its first push, worker 1 after it: the replies differ by one, where three
would be allowed. -/
theorem divergence_unittest : ∃ srv out,
    run (SSPServer.process (setMaxKeyAndChunkSize 3 9 2)) unittestServer
      (deliveries (unittest.stream 0) [0, 0, 0, 1, 1]) = some (srv, out) ∧
    ∀ r ∈ out, r.src = 0 → r.ts = 1 → ∀ r' ∈ out, r'.src = 1 → r'.ts = 1 → ∀ x x',
      unittest.ReplyValue 0 0 r 0 x → unittest.ReplyValue 1 0 r' 0 x' → |x - x'| ≤ 3 := by
  have hwaits : unittest.Waits 0 unittestServer [0, 0, 0, 1, 1] := by
    rintro (_ | _ | _ | _ | _ | j) w hj srv out hrun i hlt - -
    · exact absurd hlt (by simp)
    · obtain rfl := Option.some.inj hj
      exact absurd hlt (by simp)
    · -- worker 0 pushes after the reply to its pull
      obtain rfl := Option.some.inj hj
      obtain rfl : i = 0 := by simpa using hlt
      obtain ⟨srv', out', hrun', -, -, hpull, -⟩ :=
        clock_exact (E := unittest) 0 idle_unittestServer [0, 0] (by decide)
      obtain ⟨-, rfl⟩ := Prod.mk.inj (Option.some.inj (hrun'.symm.trans hrun))
      refine ((hpull 0 0 rfl (by decide)).2 (by decide)).mpr ?_
      have hclock : unittest.clock (0, 0 + 1) = 0 := by decide
      rw [hclock]
      simp [unittest]
    · obtain rfl := Option.some.inj hj
      exact absurd hlt (by simp)
    · obtain rfl := Option.some.inj hj
      exact absurd hlt (by simp)
    · cases hj
  obtain ⟨srv, out, hrun, hclose⟩ := divergence 0 idle_unittestServer [0, 0, 0, 1, 1] (by decide)
    hwaits 0 fun w j _ hpush => delta_unittest w j hpush
  exact ⟨srv, out, hrun, fun r hr hsrc hts r' hr' hsrc' hts' x x' hx hx' =>
    hclose 0 1 0 0 rfl rfl (by decide) r hr hsrc hts r' hr' hsrc' hts' x x' hx hx'⟩

end SSPEpoch

end FlexPS.KVStore
