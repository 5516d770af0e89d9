import FlexPS.KVStore.Cluster
import FlexPS.KVStore.SSPStaleness

/-!
# What a cluster answers

The pushes of a worker are numbered in the order of its calls, whatever else it calls in
between.  A server answers a pull with the store at the start of the epoch plus a set of pushes,
each once: all that the worker sent before the pull, and all, of every worker, that are numbered
below the clock of the server.

## Main definitions

* `pushes`, `pushNo` — the pushes of a worker, and how many of them come before a call.
* `contribution`, `Cluster.held` — what a push adds, and the store with a set of pushes.
* `Cluster.Answer`, `ClusterInv.answer` — what a reply to a pull holds.
-/

namespace FlexPS.KVStore

open Lib

variable {S Val : Type}

/-! ## Numbered pushes -/

/-- The pushes among the calls of a worker. -/
def pushes (calls : List (Call Val)) : List (Call Val) := calls.filter Call.isPush

/-- How many of the first `k` calls are pushes. -/
def pushNo (calls : List (Call Val)) (k : ℕ) : ℕ := (calls.take k).countP Call.isPush

@[simp] theorem pushNo_zero (calls : List (Call Val)) : pushNo calls 0 = 0 := rfl

theorem pushNo_succ {calls : List (Call Val)} {k : ℕ} {c : Call Val} (hc : calls[k]? = some c) :
    pushNo calls (k + 1) = pushNo calls k + if c.isPush then 1 else 0 := by
  rw [pushNo, pushNo, List.take_add_one, List.countP_append, hc]
  simp [List.countP_cons]

/-- All calls have been counted. -/
theorem pushNo_length (calls : List (Call Val)) :
    pushNo calls calls.length = (pushes calls).length := by
  rw [pushNo, List.take_length, pushes, List.countP_eq_length_filter]

theorem pushNo_mono (calls : List (Call Val)) {j k : ℕ} (h : j ≤ k) :
    pushNo calls j ≤ pushNo calls k :=
  ((List.take_prefix_take_left h).sublist).countP_le

/-- A push is found under its number. -/
theorem pushes_getElem? {calls : List (Call Val)} {k : ℕ} {c : Call Val}
    (hc : calls[k]? = some c) (hpush : c.isPush = true) :
    (pushes calls)[pushNo calls k]? = some c := by
  obtain ⟨hk, hget⟩ := List.getElem?_eq_some_iff.mp hc
  have hsplit : calls = calls.take k ++ c :: calls.drop (k + 1) := by
    rw [← hget, List.getElem_cons_drop, List.take_append_drop]
  have hnumber : pushNo calls k = (pushes (calls.take k)).length := by
    rw [pushNo, pushes, List.countP_eq_length_filter]
  have hpushes : pushes calls = pushes (calls.take k) ++ c :: pushes (calls.drop (k + 1)) := by
    conv_lhs => rw [hsplit]
    simp [pushes, hpush]
  rw [hpushes, hnumber, List.getElem?_append_right le_rfl, Nat.sub_self, List.getElem?_cons_zero]

/-- Later pushes have larger numbers. -/
theorem pushNo_lt {calls : List (Call Val)} {j k : ℕ} {c : Call Val} (hc : calls[j]? = some c)
    (hpush : c.isPush = true) (hjk : j < k) : pushNo calls j < pushNo calls k := by
  have hsucc := pushNo_succ hc
  rw [hpush, if_pos rfl] at hsucc
  have := pushNo_mono calls (show j + 1 ≤ k from hjk)
  omega

/-- Calls that are added later do not renumber. -/
theorem pushNo_extend {calls calls' : List (Call Val)} (h : calls <+: calls') {k : ℕ}
    (hk : k ≤ calls.length) : pushNo calls' k = pushNo calls k := by
  obtain ⟨rest, rfl⟩ := h
  rw [pushNo, pushNo, List.take_append_of_le_length hk]

/-- Every number is the number of a push. -/
theorem exists_pushNo {calls : List (Call Val)} {p : ℕ} (hp : p < (pushes calls).length) :
    ∃ j push, calls[j]? = some push ∧ push.isPush = true ∧ pushNo calls j = p := by
  induction calls using List.reverseRecOn with
  | nil => cases hp
  | append_singleton calls c ih =>
      by_cases hlt : p < (pushes calls).length
      · obtain ⟨j, push, hj, hpush, rfl⟩ := ih hlt
        have hle := (List.getElem?_eq_some_iff.mp hj).1
        exact ⟨j, push, by rw [List.getElem?_append_left hle, hj], hpush,
          pushNo_extend (List.prefix_append _ _) hle.le⟩
      · have hpush : c.isPush = true := by
          by_contra hpull
          simp [pushes, hpull] at hp hlt
          omega
        refine ⟨calls.length, c, List.getElem?_concat_length, hpush, ?_⟩
        rw [pushNo_extend (List.prefix_append _ _) le_rfl, pushNo_length]
        simp only [pushes, List.filter_append, List.length_append] at hp hlt ⊢
        simp [hpush] at hp
        omega

theorem pushes_extend {calls calls' : List (Call Val)} (h : calls <+: calls') :
    pushes calls <+: pushes calls' := h.filter _

variable [AddCommMonoid Val]

/-- What push number `x.2` of worker `x.1` adds to a key. -/
def contribution (t : RangeTable) (calls : ℕ → List (Call Val)) (x : ℕ × ℕ) (key : ℕ) : Val :=
  written (((pushes (calls x.1))[x.2]?.map (Call.entries t)).getD []) key

/-- What a push that was sent adds does not change. -/
theorem contribution_extend (t : RangeTable) {calls calls' : ℕ → List (Call Val)} {x : ℕ × ℕ}
    (h : calls x.1 <+: calls' x.1) (hx : x.2 < (pushes (calls x.1)).length) (key : ℕ) :
    contribution t calls' x key = contribution t calls x key := by
  obtain ⟨rest, hrest⟩ := pushes_extend h
  rw [contribution, contribution, ← hrest, List.getElem?_append_left hx]

/-- What a push adds to a key of a server is what the server gets of it. -/
theorem written_entriesOf {t : RangeTable} {n : ℕ} (ht : t.Partitioned n) {c : Call Val}
    (hc : c.Sorted t) {i : ℕ} (hi : i < n) {key : ℕ} (hlo : t.keyBound n i ≤ key)
    (hhi : key < t.keyBound n (i + 1)) :
    written (c.entriesOf t n i) key = written (c.entries t) key := by
  cases c with
  | push keys vals =>
      simp only [Call.entriesOf, Call.entries, written, between, List.filter_filter]
      congr 2
      refine List.filter_congr fun p _ => ?_
      by_cases hp : p.1 = key
      · subst hp
        simp [hlo, hhi]
      · simp [hp]
  | pushChunks ids chunks =>
      simp only [Call.entriesOf, Call.entries, written, List.filter_flatMap]
      congr 2
      refine flatMap_filter_eq fun x hx hout => ?_
      -- a chunk of another server holds no key of this one
      rw [List.filter_eq_nil_iff]
      intro p hp hkey
      have hmem := (List.of_mem_zip hx).1
      have hin : p.1 ∈ chunkKeys t x.1 := by
        obtain ⟨j, hval, heq⟩ := mem_chunkPairs.mp hp
        obtain ⟨hj, -⟩ := List.getElem?_eq_some_iff.mp hval
        rw [hc.2.2.2 x hx] at hj
        rw [chunkKeys, List.mem_range'_1]
        omega
      have howner := owner_chunkKeys ht hc.2.1 hmem hin
      rw [of_decide_eq_true hkey, ht.owner_eq hi hlo hhi] at howner
      obtain ⟨-, hlo', hhi'⟩ := ht.owner_spec (ht.chunk_lt (hc.2.1 x.1 hmem))
      rw [← howner] at hlo' hhi'
      simp [hlo', hhi'] at hout
  | pull _ => rfl
  | pullChunks _ _ => rfl
  | pullChunksWithMinClock _ _ => rfl

/-- The numbers of the pushes that are in the store of a server. -/
def SSPEpoch.numbers [StorageT S Val] {t : RangeTable} {i : ℕ} {isVector : Bool}
    {V : StoreView S Val t i isVector} (E : SSPEpoch V) (n : ℕ → ℕ) (m : ℕ) : Finset (ℕ × ℕ) :=
  (E.applied n m).image fun x => (x.1, E.clock x)

/-! ## The store with a set of pushes -/

namespace Cluster

variable [StorageT S Val] (C : Cluster S Val)

/-- The value of a key at the start of the epoch, as its server holds it. -/
def base (key : ℕ) : Val := (C.view (C.t.owner key)).view (C.start (C.t.owner key)).store key

/-- A key at the start of the epoch plus a set of pushes, each once. -/
def held (calls : ℕ → List (Call Val)) (A : Finset (ℕ × ℕ)) (key : ℕ) : Val :=
  C.base key + ∑ x ∈ A, contribution C.t calls x key

/-- The pushes of the set have been called. -/
def Sent (calls : ℕ → List (Call Val)) (A : Finset (ℕ × ℕ)) : Prop :=
  ∀ x ∈ A, x.1 ∈ C.workers ∧ x.2 < (pushes (calls x.1)).length

variable {C}

omit [AddCommMonoid Val] in
theorem Sent.later {calls calls' : ℕ → List (Call Val)} {A : Finset (ℕ × ℕ)}
    (h : C.Sent calls A) (hcalls : ∀ w, calls w <+: calls' w) : C.Sent calls' A := by
  intro x hx
  exact ⟨(h x hx).1, (h x hx).2.trans_le (pushes_extend (hcalls x.1)).length_le⟩

theorem Sent.held_later {calls calls' : ℕ → List (Call Val)} {A : Finset (ℕ × ℕ)}
    (h : C.Sent calls A) (hcalls : ∀ w, calls w <+: calls' w) (key : ℕ) :
    C.held calls' A key = C.held calls A key := by
  rw [held, held]
  congr 1
  exact Finset.sum_congr rfl fun x hx =>
    contribution_extend C.t (hcalls x.1) (h x hx).2 key

/-- Where no push subtracts anything, none of a set adds more than the set. -/
theorem contribution_le_held [PartialOrder Val] [IsOrderedAddMonoid Val]
    {calls : ℕ → List (Call Val)} {A : Finset (ℕ × ℕ)} {x : ℕ × ℕ} (hx : x ∈ A)
    (hnonneg : ∀ y ∈ A, ∀ push ∈ pushes (calls y.1), ∀ e ∈ push.entries C.t, 0 ≤ e.2) (key : ℕ) :
    C.base key + contribution C.t calls x key ≤ C.held calls A key := by
  have hadds : ∀ y ∈ A, 0 ≤ contribution C.t calls y key := by
    intro y hy
    cases hpush : (pushes (calls y.1))[y.2]? with
    | none =>
        rw [contribution, hpush]
        exact le_rfl
    | some push =>
        rw [contribution, hpush]
        refine List.sum_nonneg fun v hv => ?_
        obtain ⟨e, he, rfl⟩ := List.mem_map.mp hv
        exact hnonneg y hy push (List.mem_of_getElem? hpush) e (List.mem_of_mem_filter he)
  exact add_le_add_right (Finset.single_le_sum hadds hx) _

/-! ## Epochs and numbers -/

section Fits

variable {i : ℕ} {calls : ℕ → List (Call Val)} {E : SSPEpoch (C.view i)} (hE : C.Fits i calls E)
include hE

omit [AddCommMonoid Val] in
/-- The clock of a message is the number of pushes before it. -/
theorem Fits.clock_eq {w k : ℕ} (hk : k ≤ (calls w).length) :
    E.clock (w, k + 1) = pushNo (calls w) k := by
  induction k with
  | zero => simp [SSPEpoch.clock, Nat.count_succ, E.not_isPush_zero w]
  | succ k ih =>
      obtain ⟨c, hc⟩ : ∃ c, (calls w)[k]? = some c := ⟨_, List.getElem?_eq_getElem hk⟩
      have hpush := E.isPush_succ w k
      rw [hE.isPush_eq w k c hc] at hpush
      have hclock : E.clock (w, k + 1 + 1) =
          E.clock (w, k + 1) + if E.IsPush w (k + 1) then 1 else 0 := Nat.count_succ _ _
      rw [hclock, ih (by omega), pushNo_succ hc]
      simp only [hpush]

omit [AddCommMonoid Val] in
/-- A push in the store is a call of its worker, and its clock is its number. -/
theorem Fits.applied_call {n : ℕ → ℕ} {m : ℕ} (hn : ∀ v, n v ≤ (calls v).length + 1)
    {x : ℕ × ℕ} (hx : x ∈ E.applied n m) : ∃ j c, x.2 = j + 1 ∧ (calls x.1)[j]? = some c ∧
      c.isPush = true ∧ E.clock x = pushNo (calls x.1) j := by
  obtain ⟨-, hlt, hpush, -⟩ := E.mem_applied.mp hx
  obtain ⟨v, k⟩ := x
  cases k with
  | zero => exact absurd hpush (E.not_isPush_zero v)
  | succ j =>
      have hj : j < (calls v).length := by
        have := hn v
        simp only at hlt
        omega
      have hc : (calls v)[j]? = some (calls v)[j] := List.getElem?_eq_getElem hj
      refine ⟨j, _, rfl, hc, ?_, hE.clock_eq hj.le⟩
      rw [← hE.isPush_eq v j _ hc]
      exact (E.isPush_succ v j).mp hpush

omit [AddCommMonoid Val] hE in
theorem mem_numbers {n : ℕ → ℕ} {m : ℕ} {w k : ℕ} (h : (w, k) ∈ E.applied n m) :
    (w, E.clock (w, k)) ∈ E.numbers n m :=
  Finset.mem_image.mpr ⟨(w, k), h, rfl⟩

/-- What a message adds to a key of the server is what the push of that number adds. -/
theorem Fits.delta_eq (hi : i < C.numServers) (hcalls : ∀ w, ∀ c ∈ calls w, c.Sorted C.t)
    {w j : ℕ} {c : Call Val} (hc : (calls w)[j]? = some c) (hpush : c.isPush = true) {key : ℕ}
    (hlo : C.t.keyBound C.numServers i ≤ key) (hhi : key < C.t.keyBound C.numServers (i + 1)) :
    E.delta (w, j + 1) key = contribution C.t calls (w, pushNo (calls w) j) key := by
  have hsorted := hcalls w c (List.mem_of_getElem? hc)
  rw [contribution, pushes_getElem? hc hpush, Option.map_some, Option.getD_some,
    ← written_entriesOf C.partitioned hsorted hi hlo hhi, SSPEpoch.delta]
  congr 1
  simp only [SSPEpoch.entry, SSPEpoch.message, Request.entry, Blocked.pairs,
    hE.body_eq w j c hc, List.isEmpty_iff]
  split
  · next hnil => exact (entriesOf_eq_nil (bodyFor_bin_eq_nil.mp hnil)).symm
  · next hbin =>
      have hpart : c.part C.t C.numServers i ≠ [] := fun h => hbin (bodyFor_bin_eq_nil.mpr h)
      rw [decodePush_bodyFor (C.controlled w) hsorted hpush hpart, Option.getD_some]

/-- **The store of a server** is the store at the start plus the pushes of these numbers. -/
theorem Fits.held_eq (hi : i < C.numServers) (hcalls : ∀ w, ∀ c ∈ calls w, c.Sorted C.t)
    {n : ℕ → ℕ} {m : ℕ} (hn : ∀ v, n v ≤ (calls v).length + 1) {key : ℕ}
    (hlo : C.t.keyBound C.numServers i ≤ key) (hhi : key < C.t.keyBound C.numServers (i + 1)) :
    E.held ((C.view i).view (C.start i).store) n m key = C.held calls (E.numbers n m) key := by
  have hbase : (C.view i).view (C.start i).store key = C.base key := by
    rw [base, C.partitioned.owner_eq hi hlo hhi]
  -- pushes of one worker have different numbers
  have hinj : Set.InjOn (fun x : ℕ × ℕ => (x.1, E.clock x)) (E.applied n m) := by
    intro x hx y hy hxy
    obtain ⟨j, c, hj, hc, hpush, hclock⟩ := hE.applied_call hn hx
    obtain ⟨j', c', hj', hc', hpush', hclock'⟩ := hE.applied_call hn hy
    obtain ⟨hw, hnumber⟩ := Prod.mk.inj hxy
    rw [hclock, hclock', ← hw] at hnumber
    rw [← hw] at hc'
    rcases Nat.lt_trichotomy j j' with hlt | heq | hgt
    · exact absurd hnumber (pushNo_lt hc hpush hlt).ne
    · exact Prod.ext hw (by omega)
    · exact absurd hnumber (pushNo_lt hc' hpush' hgt).ne'
  rw [SSPEpoch.held, held, hbase, SSPEpoch.numbers, Finset.sum_image hinj]
  congr 1
  refine Finset.sum_congr rfl fun x hx => ?_
  obtain ⟨j, c, hj, hc, hpush, hclock⟩ := hE.applied_call hn hx
  have hdelta := hE.delta_eq hi hcalls hc hpush hlo hhi
  rw [hclock, ← hdelta]
  congr 1
  exact Prod.ext rfl hj

omit [AddCommMonoid Val] in
theorem Fits.sent_numbers {n : ℕ → ℕ} {m : ℕ} (hn : ∀ v, n v ≤ (calls v).length + 1) :
    C.Sent calls (E.numbers n m) := by
  intro x hx
  obtain ⟨y, hy, rfl⟩ := Finset.mem_image.mp hx
  obtain ⟨j, c, -, hc, hpush, hclock⟩ := hE.applied_call hn hy
  refine ⟨hE.workers_eq ▸ (E.mem_applied.mp hy).1, ?_⟩
  rw [hclock, ← pushNo_length]
  exact pushNo_lt hc hpush (List.getElem?_eq_some_iff.mp hc).1

end Fits

/-! ## Replies -/

variable (C) in
/-- What server `i` answers pull `k` of worker `w` with, in its reply number `q` and at clock
`m`: the store with the pushes of `A`. -/
structure Answer (s : ClusterState S Val) (i q w k : ℕ) (call : Call Val) (r : Reply Val) (m : ℕ)
    (A : Finset (ℕ × ℕ)) : Prop where
  push_eq : r.push = false
  cmd_eq : r.cmd = call.cmdFor (C.flags w) i
  res_eq : r.res = call.answer C.t C.numServers (fun _ => C.held s.calls A) i
  minClock_eq : call.withMinClock = true → r.minClock = m
  /-- The pushes of the worker before the pull. -/
  own : ∀ c < pushNo (s.calls w) k, (w, c) ∈ A
  /-- The pushes below the clock. -/
  below : ∀ v ∈ C.workers, ∀ c < m, (v, c) ∈ A
  fresh : pushNo (s.calls w) k ≤ m + C.staleness
  sent : C.Sent s.calls A
  /-- The pushes that were acknowledged earlier. -/
  acked : ∀ v j c, (s.calls v)[j]? = some c → c.isPush = true →
    (∃ r' ∈ (s.replies i).take q, r'.src = v ∧ r'.ts = C.firstTs v + (j + 1)) →
      (v, pushNo (s.calls v) j) ∈ A
  clock_le : m ≤ (s.servers i).minClock

end Cluster

section Answer

variable [StorageT S Val] {C : Cluster S Val} {s : ClusterState S Val}

/-- **What a reply to a pull holds.** -/
theorem ClusterInv.answer (h : ClusterInv C s) {i q w k : ℕ} {call : Call Val} {r : Reply Val}
    (hi : i < C.numServers) (hr : (s.replies i)[q]? = some r) (hsrc : r.src = w)
    (hts : r.ts = C.firstTs w + (k + 1)) (hcall : (s.calls w)[k]? = some call)
    (hpull : call.isPush = false) : ∃ m A, C.Answer s i q w k call r m A := by
  obtain ⟨E, hE⟩ := C.exists_fits hi h.sorted
  obtain ⟨stamps, hstamps⟩ := h.stamped i hi E hE
  have hkey : ∀ {a : Stamp} {v j : ℕ}, (E.reply C.kvId ((C.view i).view (C.start i).store)
      a.arrivals a.clock a.message).src = v → (E.reply C.kvId ((C.view i).view (C.start i).store)
      a.arrivals a.clock a.message).ts = C.firstTs v + j → a.message = (v, j) := by
    intro a v j hsrc hts
    apply E.key_injective
    rw [← E.reply_key C.kvId ((C.view i).view (C.start i).store) a.arrivals a.clock a.message,
      hsrc, hts, SSPEpoch.key, hE.ts_eq]
  have harrived : ∀ a ∈ stamps, ∀ v, a.arrivals v ≤ (s.calls v).length + 1 := fun a ha v =>
    ((hstamps.past a ha).1 v).trans (h.arrived i v)
  rw [hstamps.replies_eq, List.getElem?_map, Option.map_eq_some_iff] at hr
  obtain ⟨a, ha, rfl⟩ := hr
  have hmem := List.mem_of_getElem? ha
  have hx := hkey hsrc hts
  have hanswered := hstamps.answered a hmem
  rw [hx] at hanswered
  have hnot : ¬ E.IsPush w (k + 1) := by
    rw [E.isPush_succ, hE.isPush_eq w k call hcall, hpull]
    exact Bool.false_ne_true
  have hclock : E.clock (w, k + 1) = pushNo (s.calls w) k :=
    hE.clock_eq (List.getElem?_eq_some_iff.mp hcall).1.le
  have hreply := E.reply_of_pull C.kvId ((C.view i).view (C.start i).store) a.arrivals a.clock
    (x := (w, k + 1)) (Nat.succ_pos k) hnot
  have hentry : E.entry (w, k + 1) = ⟨(call.bodyFor C.t C.numServers (C.flags w) i).cmd, w,
      C.firstTs w + (k + 1), (call.bodyFor C.t C.numServers (C.flags w) i).bin⟩ := by
    simp only [SSPEpoch.entry, SSPEpoch.message, Request.entry, hE.ts_eq, hE.body_eq w k call hcall]
  rw [hentry] at hreply
  have hpart : call.part C.t C.numServers i ≠ [] := by
    intro hnil
    apply hanswered.2.2.2
    rw [hentry]
    exact bodyFor_bin_eq_nil.mpr hnil
  refine ⟨a.clock, E.numbers a.arrivals a.clock, ?_, ?_, ?_, ?_, ?_, ?_, ?_, ?_, ?_, ?_⟩
  · rw [hx, hreply]
    rfl
  · rw [hx, hreply]
    rfl
  · rw [hx, hreply]
    simp only [pullReply, Call.answer, decodePull_bodyFor (C.controlled w) hpull hpart,
      Option.getD_some]
    congr 1
    refine List.map_congr_left fun key hk => ?_
    obtain ⟨hlo, hhi⟩ := touched_sorted C.partitioned
      (h.sorted w call (List.mem_of_getElem? hcall)) hpull hk
    exact hE.held_eq hi h.sorted (harrived a hmem) hlo hhi
  · intro hmin
    rw [hx, hreply]
    simp only [pullReply, sentClock]
    exact if_pos ((clock_cmdFor (C.controlled w) i).mpr hmin)
  · intro c hc
    rw [← hclock] at hc
    obtain ⟨j, hpush, rfl, hj⟩ := E.exists_push (n := fun _ => k + 1) hc
    exact C.mem_numbers (hanswered.mem_applied hj hpush)
  · intro v hv c hc
    rw [← hE.workers_eq] at hv
    obtain ⟨j, hpush, rfl, hj⟩ := E.exists_push (hc.trans_le (hstamps.slowest a hmem v hv))
    exact C.mem_numbers (E.mem_applied.mpr ⟨hv, hj, hpush, by omega⟩)
  · rw [← hclock, ← hE.staleness_eq]
    exact hanswered.2.2.1
  · exact hE.sent_numbers (harrived a hmem)
  · rintro v j c hc hpush ⟨r', hr', hsrc', hts'⟩
    obtain ⟨q', hq', hget⟩ := List.getElem_of_mem hr'
    have hlt : q' < q := by
      rw [List.length_take] at hq'
      omega
    rw [List.getElem_take] at hget
    have hr' := List.getElem?_eq_some_iff.mpr ⟨_, hget⟩
    rw [hstamps.replies_eq, List.getElem?_map, Option.map_eq_some_iff] at hr'
    obtain ⟨b, hb, rfl⟩ := hr'
    have hbmem := List.mem_of_getElem? hb
    have hy := hkey hsrc' hts'
    have hbefore : b.Before a := by
      obtain ⟨hq₁, rfl⟩ := List.getElem?_eq_some_iff.mp hb
      obtain ⟨hq₂, rfl⟩ := List.getElem?_eq_some_iff.mp ha
      exact List.pairwise_iff_getElem.mp hstamps.ordered q' q hq₁ hq₂ hlt
    have hbanswered := hstamps.answered b hbmem
    rw [hy] at hbanswered
    have hisPush : E.IsPush v (j + 1) := by
      rw [E.isPush_succ, hE.isPush_eq v j c hc, hpush]
    rw [← hE.clock_eq (List.getElem?_eq_some_iff.mp hc).1.le]
    apply C.mem_numbers
    refine E.mem_applied.mpr ⟨hbanswered.1, hbanswered.2.1.trans_le (hbefore.1 v), hisPush, ?_⟩
    exact hbanswered.2.2.1.trans (Nat.add_le_add_right hbefore.2 _)
  · exact (hstamps.past a hmem).2

/-! ## Stores -/

variable (C) in
/-- The store of server `i` is the store at the start with the pushes of `A`. -/
def Cluster.Stored (s : ClusterState S Val) (i : ℕ) (A : Finset (ℕ × ℕ)) : Prop :=
  ∀ key, C.t.keyBound C.numServers i ≤ key → key < C.t.keyBound C.numServers (i + 1) →
    (C.view i).view (s.servers i).store key = C.held s.calls A key

/-- **What a server stores** are pushes that were sent, among them all below its clock. -/
theorem ClusterInv.stored (h : ClusterInv C s) {i : ℕ} (hi : i < C.numServers)
    (hstarted : s.delivered i ≠ []) : ∃ A, C.Stored s i A ∧ C.Sent s.calls A ∧
      ∀ v ∈ C.workers, ∀ c < (s.servers i).minClock, (v, c) ∈ A := by
  obtain ⟨E, hE⟩ := C.exists_fits hi h.sorted
  rcases h.reached i hi E hE with ⟨hnil, -, -⟩ | ⟨-, m, hinv, -⟩
  · exact absurd hnil hstarted
  refine ⟨E.numbers (fun v => (s.delivered i).count v) m, fun key hlo hhi => ?_,
    hE.sent_numbers (h.arrived i), fun v hv c hc => ?_⟩
  · rw [hinv.contents.view_eq key (C.owned i hi key hlo hhi)]
    exact hE.held_eq hi h.sorted (h.arrived i) hlo hhi
  · rw [hinv.counters.minClock_eq] at hc
    rw [← hE.workers_eq] at hv
    obtain ⟨j, hpush, rfl, hj⟩ := E.exists_push (hc.trans_le (hinv.slowest.le v hv))
    exact C.mem_numbers (E.mem_applied.mpr ⟨hv, hj, hpush, by omega⟩)

end Answer

end FlexPS.KVStore
