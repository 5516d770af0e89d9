import FlexPS.ML.NoneChunkSystem

/-!
# Updates in a shared push buffer

What a `PSNoneChunkWorker` puts into the buffer of its process is sent by whichever worker of the
process flushes first, as one of that worker's pushes.  The clocks of the servers count the pushes
of every worker.  So an update of a slow worker may travel with a later number than the worker has
reached itself, and a server may reach the clock of the slow worker without it.

## Main definitions

* `Update`, `Ledger` — what was put into the buffer and which flush has taken it out.
* `SentOnce` — every update is sent by exactly one flush.
* `AppliedInTime` — what a server has at a clock are all updates of the rounds before it.
* `TakenInTurn` — nobody takes out updates of workers that have flushed less often.
* `LedgerInv` — the invariant.
* `bufferedPushes_applied` — every update is sent once, and in time if taken in turn.
* `bufferedPushes_late` — a run in which an update is late.
-/

namespace FlexPS.ML

open KVStore Lib ModelWithCM

variable {S Val : Type}

/-! ## The ledger -/

/-- An update that was put into the buffer: by whom, after how many of its flushes, and the flush
that has taken it out. -/
structure Update (Val : Type) where
  worker : ℕ
  round : ℕ
  entry : ℕ × List Val
  flush : Option (ℕ × ℕ)

/-- The update once a flush has taken a chunk out of the buffer. -/
def Update.takenBy (flush : ℕ × ℕ) (c : ℕ) (u : Update Val) : Update Val :=
  if u.entry.1 = c ∧ u.flush = none then { u with flush := some flush } else u

/-- What an update adds to a key, if it is with the given flush. -/
def Update.weight [AddCommMonoid Val] (t : RangeTable) (flush : Option (ℕ × ℕ)) (key : ℕ)
    (u : Update Val) : Val :=
  if u.flush = flush then written (chunkPairs t.chunkSize u.entry) key else 0

/-- What was put into the buffer, and how often every worker has flushed it. -/
structure Ledger (Val : Type) where
  updates : List (Update Val)
  flushes : ℕ → ℕ

namespace Ledger

/-- Before anything happens. -/
def new : Ledger Val := ⟨[], fun _ => 0⟩

/-- What an event changes. -/
def note (l : Ledger Val) : ℕ × NoneChunkEvent Val → Ledger Val
  | (t, .buffered p) => { l with updates := l.updates ++ [⟨t, l.flushes t, p, none⟩] }
  | (t, .took c) => { l with updates := l.updates.map (Update.takenBy (t, l.flushes t) c) }
  | (t, .flushed _) => { l with flushes := Function.update l.flushes t (l.flushes t + 1) }
  | (_, .pulledChunks _ _) => l

/-- The ledger after a history. -/
def after (out : List (ℕ × NoneChunkEvent Val)) : Ledger Val := out.foldl note new

/-- The sum of the updates that a flush has taken out, or that none has, at a key. -/
def carried [AddCommMonoid Val] (t : RangeTable) (l : Ledger Val) (flush : Option (ℕ × ℕ))
    (key : ℕ) : Val :=
  (l.updates.map (Update.weight t flush key)).sum

/-- The updates that were put into the buffer before the `m`-th flush of their workers are in pushes
of `A`. -/
def Covered (l : Ledger Val) (m : ℕ) (A : Finset (ℕ × ℕ)) : Prop :=
  ∀ u ∈ l.updates, u.round < m → ∃ x ∈ A, u.flush = some x

/-- Every flush has taken updates of its own round or later ones. -/
def InTurn (l : Ledger Val) : Prop := ∀ u ∈ l.updates, ∀ x ∈ u.flush, x.2 ≤ u.round

theorem after_append (out o : List (ℕ × NoneChunkEvent Val)) :
    after (out ++ o) = o.foldl note (after out) := by
  rw [after, List.foldl_append]
  rfl

end Ledger

/-- The value of a key in the buffer. -/
def PushBuffer.value [Zero Val] (t : RangeTable) (b : PushBuffer Val) (key : ℕ) : Val :=
  ((b.params (key / t.chunkSize))[key % t.chunkSize]?).getD 0

/-- How far the flush of a worker is, and what it has taken out. -/
def NoneChunkPhase.inFlush : NoneChunkPhase Val → Option (ℕ × List (ℕ × List Val))
  | flushing _ next chunks => some (next, chunks)
  | _ => none

/-! ## What is promised -/

section Promise

variable [StorageT S Val]

/-- **Every update is sent by exactly one flush**: the updates that no flush has taken out are what
is in the buffer, the others were taken by a flush that has been sent or is under way, and what a
flush has sent is the sum of the updates it has taken. -/
structure SentOnce [AddCommMonoid Val] (C : Cluster S Val) (threads : Finset ℕ) (l : Ledger Val)
    (s : NoneChunkSystem S Val) : Prop where
  flushes_eq : ∀ t ∈ threads, l.flushes t = (pushes (s.process.cluster.calls t)).length
  waiting : ∀ key, l.carried C.t none key = s.buffer.value C.t key
  taken : ∀ u ∈ l.updates, ∀ x ∈ u.flush, x.1 ∈ threads ∧
    (x.2 < l.flushes x.1 ∨ (x.2 = l.flushes x.1 ∧ (s.phases x.1).inFlush.isSome))
  sent : ∀ t ∈ threads, ∀ n < l.flushes t, ∀ key,
    contribution C.t s.process.cluster.calls (t, n) key = l.carried C.t (some (t, n)) key

/-- **The clocks of the servers count buffered updates**: the store of a server with clock `m` has
every update that was put into the buffer before the `m`-th flush of its worker, and so has the
store that a server answers a pull with. -/
structure AppliedInTime [AddCommMonoid Val] (C : Cluster S Val) (l : Ledger Val)
    (s : ClusterState S Val) : Prop where
  stored : ∀ i < C.numServers, s.delivered i ≠ [] →
    ∃ A, C.Stored s i A ∧ l.Covered (s.servers i).minClock A
  answered : ∀ i < C.numServers, ∀ q r, (s.replies i)[q]? = some r →
    ∀ w k call, r.key = C.replyKey (w, k) → (s.calls w)[k]? = some call → call.isPush = false →
      ∃ m A, C.Answer s i q w k call r m A ∧ l.Covered m A

/-- A worker that flushes for the `n`-th time takes out only updates of workers that had flushed at
least `n - 1` times when they put them in. -/
def TakenInTurn (t : RangeTable) (out : List (ℕ × NoneChunkEvent Val)) (s : NoneChunkSystem S Val) :
    NoneChunkInput Val → Prop
  | .proceed w => ∀ x ∈ (s.phases w).inFlush, x.1 < t.chunkNum →
      ∀ u ∈ (Ledger.after out).updates, u.entry.1 = x.1 → u.flush = none →
        (Ledger.after out).flushes w ≤ u.round
  | _ => True

instance (t : RangeTable) (out : List (ℕ × NoneChunkEvent Val)) (s : NoneChunkSystem S Val) :
    ∀ i, Decidable (TakenInTurn t out s i)
  | .proceed w => inferInstanceAs (Decidable (∀ x ∈ (s.phases w).inFlush, x.1 < t.chunkNum →
      ∀ u ∈ (Ledger.after out).updates, u.entry.1 = x.1 → u.flush = none →
        (Ledger.after out).flushes w ≤ u.round))
  | .other _ _ | .background _ | .pullChunks _ _ | .pushChunks _ _ _ => .isTrue trivial

end Promise

/-! ## Sums over the ledger -/

section Sums

variable [AddCommMonoid Val] {t : RangeTable} {l : Ledger Val}

/-- What a chunk writes to a key. -/
theorem written_chunkPairs {p : ℕ × List Val} (hsize : 0 < t.chunkSize)
    (hlen : p.2.length ≤ t.chunkSize) (key : ℕ) :
    written (chunkPairs t.chunkSize p) key =
      if key / t.chunkSize = p.1 then (p.2[key % t.chunkSize]?).getD 0 else 0 := by
  have hat := writtenAt_chunkPairs hlen (key / t.chunkSize) (key % t.chunkSize)
  rwa [writtenAt, if_pos (Nat.mod_lt key hsize), Nat.div_add_mod'] at hat

section Took

variable {u : Update Val} {c : ℕ} (hsize : 0 < t.chunkSize) (hlen : u.entry.2.length ≤ t.chunkSize)
include hsize hlen

/-- What is taken out waits no more. -/
theorem Update.weight_takenBy_none (x : ℕ × ℕ) (key : ℕ) : (u.takenBy x c).weight t none key =
    if key / t.chunkSize = c then 0 else u.weight t none key := by
  have hkey := written_chunkPairs hsize hlen key
  unfold takenBy
  split
  · next htaken =>
      rw [weight, if_neg (by simp), weight, if_pos htaken.2, hkey, ← htaken.1]
      split <;> rfl
  · next hstays =>
      rw [weight]
      split
      · next hnone =>
          rw [hkey]
          by_cases hchunk : key / t.chunkSize = c
          · have hother : key / t.chunkSize ≠ u.entry.1 := fun heq =>
              hstays ⟨heq.symm.trans hchunk, hnone⟩
            rw [if_neg hother, if_pos hchunk]
          · rw [if_neg hchunk]
      · rw [ite_self]

/-- What is taken out is with the flush. -/
theorem Update.weight_takenBy_some (x y : ℕ × ℕ) (key : ℕ) :
    (u.takenBy x c).weight t (some y) key = u.weight t (some y) key +
      if y = x ∧ key / t.chunkSize = c then u.weight t none key else 0 := by
  have hkey := written_chunkPairs hsize hlen key
  unfold takenBy
  split
  · next htaken =>
      obtain ⟨rfl, hnone⟩ := htaken
      simp only [weight, hnone, Option.some.injEq, if_true, hkey]
      by_cases hxy : x = y
      · subst hxy
        by_cases hchunk : key / t.chunkSize = u.entry.1 <;> simp [hchunk]
      · rw [if_neg hxy, if_neg (by simp), if_neg fun h => hxy h.1.symm, add_zero]
  · next hstays =>
      have hzero : y = x ∧ key / t.chunkSize = c → u.weight t none key = 0 := by
        rintro ⟨-, hchunk⟩
        refine ite_eq_right_iff.mpr fun hnone => ?_
        have hother : key / t.chunkSize ≠ u.entry.1 := fun heq =>
          hstays ⟨heq.symm.trans hchunk, hnone⟩
        rw [hkey, if_neg hother]
      rw [ite_eq_right_iff.mpr hzero, add_zero]

end Took

namespace Ledger

/-- An update that is put in counts among the waiting ones. -/
theorem carried_buffered (w : ℕ) (p : ℕ × List Val) (flush : Option (ℕ × ℕ)) (key : ℕ) :
    (l.note (w, .buffered p)).carried t flush key = l.carried t flush key +
      if flush = none then written (chunkPairs t.chunkSize p) key else 0 := by
  simp only [carried, note, List.map_append, List.sum_append, List.map_singleton,
    List.sum_singleton, Update.weight, eq_comm]

section Took

variable {w c : ℕ} (hsize : 0 < t.chunkSize)
  (hlen : ∀ u ∈ l.updates, u.entry.2.length ≤ t.chunkSize)
include hsize hlen

/-- A chunk that is taken out is empty afterwards. -/
theorem carried_took_none (key : ℕ) : (l.note (w, .took c)).carried t none key =
    if key / t.chunkSize = c then 0 else l.carried t none key := by
  have hterms := List.map_congr_left fun u hu =>
    Update.weight_takenBy_none hsize (hlen u hu) (c := c) (w, l.flushes w) key
  simp only [carried, note, List.map_map, Function.comp_def, hterms]
  split
  · simp
  · rfl

/-- What a flush takes out of a chunk are the updates that were waiting in it. -/
theorem carried_took_some (y : ℕ × ℕ) (key : ℕ) : (l.note (w, .took c)).carried t (some y) key =
    l.carried t (some y) key +
      if y = (w, l.flushes w) ∧ key / t.chunkSize = c then l.carried t none key else 0 := by
  have hterms := List.map_congr_left fun u hu =>
    Update.weight_takenBy_some hsize (hlen u hu) (c := c) (w, l.flushes w) y key
  simp only [carried, note, List.map_map, Function.comp_def, hterms, List.sum_map_add]
  split
  · rfl
  · simp

end Took

end Ledger

/-- An update adds to the values in the buffer. -/
theorem PushBuffer.value_add {b b' : PushBuffer Val} (h : b.Sized t) {p : ℕ × List Val}
    (hsize : 0 < t.chunkSize) (hp : p.2.length = t.realChunkSize p.1) (hadd : b.add p = some b')
    (key : ℕ) : b'.value t key = b.value t key + written (chunkPairs t.chunkSize p) key := by
  have hle : p.2.length ≤ t.chunkSize := hp.trans_le (realChunkSize_le hsize p.1)
  rw [written_chunkPairs hsize hle]
  have hresized : (b.resized p).length = p.2.length ∧ ∀ j : ℕ,
      ((b.resized p)[j]?).getD 0 = ((b.params p.1)[j]?).getD 0 := by
    unfold resized
    split
    · next hempty =>
        rw [List.isEmpty_iff.mp hempty]
        refine ⟨List.length_replicate, fun j => ?_⟩
        rw [List.getElem?_replicate]
        split <;> rfl
    · next hsome =>
        have hlen := (h p.1).resolve_left fun hnil => hsome (by rw [hnil]; rfl)
        exact ⟨hlen.trans hp.symm, fun _ => rfl⟩
  unfold PushBuffer.add at hadd
  split at hadd
  · obtain rfl := Option.some.inj hadd
    simp only [value]
    by_cases hkey : key / t.chunkSize = p.1
    · rw [if_pos hkey, hkey, Function.update_self, List.drop_of_length_le hresized.1.le,
        List.append_nil, List.getElem?_zipWith, ← hresized.2]
      by_cases hj : key % t.chunkSize < p.2.length
      · rw [List.getElem?_eq_getElem hj, List.getElem?_eq_getElem (hresized.1 ▸ hj)]
        rfl
      · rw [List.getElem?_eq_none (by omega), List.getElem?_eq_none (by omega)]
        exact (add_zero 0).symm
    · rw [if_neg hkey, Function.update_of_ne hkey, add_zero]
  · cases hadd

end Sums

/-! ## The invariant -/

section Invariant

variable [StorageT S Val]

/-- Where an update is: in the buffer as long as its worker has not passed its chunk in a flush, or
with a flush that was sent, or is under way while nobody else flushes. -/
structure Update.Placed (C : Cluster S Val) (threads : Finset ℕ) (l : Ledger Val)
    (s : NoneChunkSystem S Val) (u : Update Val) : Prop where
  worker : u.worker ∈ C.workers ∧ u.worker ∈ threads
  chunk : u.entry.1 < C.t.chunkNum
  length_eq : u.entry.2.length = C.t.realChunkSize u.entry.1
  waits : u.flush = none → s.buffer.params u.entry.1 ≠ [] ∧ u.round = l.flushes u.worker ∧
    ∀ x ∈ (s.phases u.worker).inFlush, x.1 ≤ u.entry.1
  taken : ∀ x ∈ u.flush, x.1 ∈ threads ∧ (x.2 < l.flushes x.1 ∨
    (x.2 = l.flushes x.1 ∧ u.round = l.flushes u.worker ∧ (s.phases x.1).inFlush.isSome))

variable [AddCommMonoid Val]

/-- The invariant: the ledger tells what is in the buffer, with the flush under way and in the
messages that were sent. -/
structure LedgerInv (C : Cluster S Val) (threads : Finset ℕ) (l : Ledger Val)
    (s : NoneChunkSystem S Val) : Prop where
  senders : ∀ v, pushes (s.process.cluster.calls v) ≠ [] → v ∈ C.workers
  holder : ∀ t, (s.phases t).inFlush.isSome → s.buffer.holder = some t
  placed : ∀ u ∈ l.updates, u.Placed C threads l s
  flushes_eq : ∀ t ∈ threads, l.flushes t = (pushes (s.process.cluster.calls t)).length
  waiting : ∀ key, l.carried C.t none key = s.buffer.value C.t key
  underway : ∀ t, ∀ x ∈ (s.phases t).inFlush, ∀ key,
    l.carried C.t (some (t, l.flushes t)) key =
      written (x.2.flatMap (chunkPairs C.t.chunkSize)) key
  sent : ∀ t ∈ threads, ∀ n < l.flushes t, ∀ key,
    contribution C.t s.process.cluster.calls (t, n) key = l.carried C.t (some (t, n)) key

variable {C : Cluster S Val} {threads : Finset ℕ} {l : Ledger Val} {s s' : NoneChunkSystem S Val}
  {o : List (ℕ × NoneChunkEvent Val)}

theorem ledgerInv_init (C : Cluster S Val) (threads : Finset ℕ) :
    LedgerInv C threads .new (NoneChunkSystem.init C) where
  senders _ h := absurd rfl h
  holder _ h := by cases h
  placed _ h := by cases h
  flushes_eq _ _ := rfl
  waiting _ := rfl
  underway _ _ h := by cases h
  sent _ _ _ h := absurd h (Nat.not_lt_zero _)

omit [StorageT S Val] in
/-- What pushes add depends on the pushes only. -/
theorem contribution_congr {t : RangeTable} {calls calls' : ℕ → List (Call Val)} {x : ℕ × ℕ}
    (h : pushes (calls' x.1) = pushes (calls x.1)) (key : ℕ) :
    contribution t calls' x key = contribution t calls x key := by
  rw [contribution, contribution, h]

/-- Nothing happens to the buffer. -/
theorem LedgerInv.frame (h : LedgerInv C threads l s) (hbuffer : s'.buffer = s.buffer)
    (hphases : ∀ v, (s'.phases v).inFlush = (s.phases v).inFlush)
    (hpushes : ∀ v ∈ threads,
      pushes (s'.process.cluster.calls v) = pushes (s.process.cluster.calls v))
    (hsenders : ∀ v, pushes (s'.process.cluster.calls v) ≠ [] → v ∈ C.workers) :
    LedgerInv C threads l s' where
  senders := hsenders
  holder t ht := by
    rw [hphases] at ht
    rw [hbuffer]
    exact h.holder t ht
  placed u hu := by
    obtain ⟨hworker, hchunk, hlen, hwaits, htaken⟩ := h.placed u hu
    refine ⟨hworker, hchunk, hlen, fun hnone => ?_, fun x hx => ?_⟩
    · rw [hbuffer, hphases]
      exact hwaits hnone
    · rw [hphases]
      exact htaken x hx
  flushes_eq t ht := by
    rw [hpushes t ht]
    exact h.flushes_eq t ht
  waiting key := by
    rw [hbuffer]
    exact h.waiting key
  underway t x hx := h.underway t x (hphases t ▸ hx)
  sent t ht n hn key := by
    rw [contribution_congr (hpushes t ht)]
    exact h.sent t ht n hn key

/-- A worker puts an update into the buffer. -/
theorem LedgerInv.buffered (h : LedgerInv C threads l s) (hsized : s.buffer.Sized C.t) {t : ℕ}
    (ht : t ∈ threads) (hworker : t ∈ C.workers) (hphase : (s.phases t).inFlush = none)
    {p : ℕ × List Val} (hchunk : p.1 < C.t.chunkNum)
    (hlen : p.2.length = C.t.realChunkSize p.1) (hadd : s.buffer.add p = some s'.buffer)
    (hcluster : s'.process.cluster = s.process.cluster)
    (hphases : ∀ v, (s'.phases v).inFlush = (s.phases v).inFlush) :
    LedgerInv C threads (l.note (t, .buffered p)) s' := by
  have hsize := C.partitioned.chunkSize_pos
  have hvalue := PushBuffer.value_add hsized hsize hlen hadd
  have hparams : s'.buffer.holder = s.buffer.holder ∧
      ∀ c, c = p.1 ∨ s.buffer.params c ≠ [] → s'.buffer.params c ≠ [] := by
    have hpos := realChunkSize_pos hsize p.1
    unfold PushBuffer.add at hadd
    split at hadd
    · next hle =>
        rw [← Option.some.inj hadd]
        refine ⟨rfl, fun c hc => ?_⟩
        by_cases hcp : c = p.1
        · subst hcp
          simp only [Function.update_self]
          refine List.ne_nil_of_length_pos ?_
          rw [List.length_append, List.length_zipWith, List.length_drop]
          omega
        · simp only [Function.update_of_ne hcp]
          exact hc.resolve_left hcp
    · cases hadd
  refine ⟨fun v hv => h.senders v (hcluster ▸ hv), fun v hv => ?_, fun u hu => ?_, fun v hv => ?_,
    fun key => ?_, fun v x hx key => ?_, fun v hv n hn key => ?_⟩
  · rw [hphases] at hv
    exact hparams.1.trans (h.holder v hv)
  · rcases List.mem_append.mp hu with hu | hu
    · obtain ⟨hw, hc, hl, hwaits, htaken⟩ := h.placed u hu
      refine ⟨hw, hc, hl, fun hnone => ?_, fun x hx => ?_⟩
      · obtain ⟨hin, hwaiting⟩ := hwaits hnone
        rw [hphases]
        exact ⟨hparams.2 _ (.inr hin), hwaiting⟩
      · rw [hphases]
        exact htaken x hx
    · obtain rfl := List.mem_singleton.mp hu
      refine ⟨⟨hworker, ht⟩, hchunk, hlen, fun _ => ⟨hparams.2 _ (.inl rfl), rfl, ?_⟩,
        fun x hx => by cases hx⟩
      rw [hphases, hphase]
      exact fun x hx => by cases hx
  · rw [hcluster]
    exact h.flushes_eq v hv
  · rw [Ledger.carried_buffered, if_pos rfl, h.waiting key, hvalue]
  · rw [Ledger.carried_buffered, if_neg (by simp), add_zero]
    exact h.underway v x (hphases v ▸ hx) key
  · rw [Ledger.carried_buffered, if_neg (by simp), add_zero, hcluster]
    exact h.sent v hv n hn key

/-- A flush starts, and nobody else is flushing. -/
theorem LedgerInv.locked (h : LedgerInv C threads l s) {t : ℕ} (hfree : s.buffer.holder = none)
    (hparams : s'.buffer.params = s.buffer.params) (hholder : s'.buffer.holder = some t)
    (hcluster : s'.process.cluster = s.process.cluster)
    (hphase : (s'.phases t).inFlush = some (0, []))
    (hphases : ∀ v ≠ t, (s'.phases v).inFlush = (s.phases v).inFlush) :
    LedgerInv C threads l s' := by
  have hnobody : ∀ v, (s.phases v).inFlush = none := by
    intro v
    by_contra hflush
    have hheld := h.holder v (Option.isSome_iff_ne_none.mpr hflush)
    rw [hfree] at hheld
    cases hheld
  have honly : ∀ v, ∀ x ∈ (s'.phases v).inFlush, v = t ∧ x = (0, []) := by
    intro v x hx
    by_cases hv : v = t
    · rw [hv, hphase] at hx
      exact ⟨hv, (Option.some.inj hx).symm⟩
    · rw [hphases v hv, hnobody] at hx
      cases hx
  refine ⟨fun v hv => h.senders v (hcluster ▸ hv), fun v hv => ?_, fun u hu => ?_, fun v hv => ?_,
    fun key => ?_, fun v x hx key => ?_, fun v hv n hn key => ?_⟩
  · obtain ⟨x, hx⟩ := Option.isSome_iff_exists.mp hv
    rw [(honly v x hx).1]
    exact hholder
  · obtain ⟨hw, hc, hl, hwaits, htaken⟩ := h.placed u hu
    refine ⟨hw, hc, hl, fun hnone => ?_, fun x hx => ?_⟩
    · obtain ⟨hin, hround, -⟩ := hwaits hnone
      refine ⟨hparams ▸ hin, hround, fun x hx => ?_⟩
      rw [(honly _ x hx).2]
      exact Nat.zero_le _
    · obtain ⟨hmem, hsent | ⟨-, -, hflush⟩⟩ := htaken x hx
      · exact ⟨hmem, .inl hsent⟩
      · rw [hnobody] at hflush
        cases hflush
  · rw [hcluster]
    exact h.flushes_eq v hv
  · rw [h.waiting key, PushBuffer.value, PushBuffer.value, hparams]
  · obtain ⟨rfl, rfl⟩ := honly v x hx
    -- nothing has been taken out yet
    refine List.sum_eq_zero fun y hy => ?_
    obtain ⟨u, hu, rfl⟩ := List.mem_map.mp hy
    refine if_neg fun hflush => ?_
    obtain ⟨-, hlt | ⟨-, -, hother⟩⟩ := (h.placed u hu).taken _ hflush
    · exact lt_irrefl _ hlt
    · rw [hnobody] at hother
      cases hother
  · rw [hcluster]
    exact h.sent v hv n hn key

/-- Whoever is flushing is the one that holds the buffer. -/
theorem LedgerInv.alone (h : LedgerInv C threads l s) {t v : ℕ}
    (ht : (s.phases t).inFlush.isSome) (hv : (s.phases v).inFlush.isSome) : v = t :=
  Option.some.inj ((h.holder v hv).symm.trans (h.holder t ht))

section Takes

variable {t next : ℕ} {chunks : List (ℕ × List Val)} (h : LedgerInv C threads l s)
  (hphase : (s.phases t).inFlush = some (next, chunks))
  (hcluster : s'.process.cluster = s.process.cluster)
  (hphases : ∀ v ≠ t, (s'.phases v).inFlush = (s.phases v).inFlush)
include h hphase hcluster hphases

/-- The flush passes a chunk that is empty in the buffer. -/
theorem LedgerInv.passes (hempty : s.buffer.params next = []) (hbuffer : s'.buffer = s.buffer)
    (hphase' : (s'.phases t).inFlush = some (next + 1, chunks)) : LedgerInv C threads l s' := by
  have hsome : ∀ v, (s'.phases v).inFlush.isSome = (s.phases v).inFlush.isSome := by
    intro v
    by_cases hv : v = t
    · rw [hv, hphase', hphase]
      rfl
    · rw [hphases v hv]
  refine ⟨fun v hv => h.senders v (hcluster ▸ hv), fun v hv => ?_, fun u hu => ?_, fun v hv => ?_,
    fun key => ?_, fun v x hx key => ?_, fun v hv n hn key => ?_⟩
  · rw [hbuffer]
    exact h.holder v ((hsome v).symm.trans hv)
  · obtain ⟨hw, hc, hl, hwaits, htaken⟩ := h.placed u hu
    refine ⟨hw, hc, hl, fun hnone => ?_, fun x hx => ?_⟩
    · obtain ⟨hin, hround, hpassed⟩ := hwaits hnone
      rw [hbuffer]
      refine ⟨hin, hround, fun x hx => ?_⟩
      by_cases hv : u.worker = t
      · rw [hv, hphase'] at hx
        rw [hv] at hpassed
        obtain rfl := Option.some.inj hx
        have hne : next ≠ u.entry.1 := fun heq => hin (heq ▸ hempty)
        exact lt_of_le_of_ne (hpassed _ hphase) hne
      · rw [hphases _ hv] at hx
        exact hpassed x hx
    · rw [hsome]
      exact htaken x hx
  · rw [hcluster]
    exact h.flushes_eq v hv
  · rw [hbuffer]
    exact h.waiting key
  · by_cases hv : v = t
    · subst hv
      rw [hphase'] at hx
      obtain rfl := Option.some.inj hx
      exact h.underway v _ hphase key
    · exact h.underway v x (hphases v hv ▸ hx) key
  · rw [hcluster]
    exact h.sent v hv n hn key

/-- The flush takes a chunk out of the buffer. -/
theorem LedgerInv.took (ht : t ∈ threads) (hsized : s.buffer.Sized C.t)
    (hsome : s.buffer.params next ≠ [])
    (hparams : s'.buffer.params = Function.update s.buffer.params next [])
    (hholder : s'.buffer.holder = s.buffer.holder)
    (hphase' : (s'.phases t).inFlush = some (next + 1, chunks ++ [(next, s.buffer.params next)])) :
    LedgerInv C threads (l.note (t, .took next)) s' := by
  have hsize := C.partitioned.chunkSize_pos
  have hlen : ∀ u ∈ l.updates, u.entry.2.length ≤ C.t.chunkSize := fun u hu =>
    (h.placed u hu).length_eq.trans_le (realChunkSize_le hsize _)
  have hflush : ∀ v, (s'.phases v).inFlush.isSome = (s.phases v).inFlush.isSome := by
    intro v
    by_cases hv : v = t
    · rw [hv, hphase', hphase]
      rfl
    · rw [hphases v hv]
  have halone : ∀ v, (s.phases v).inFlush.isSome → v = t := fun v hv =>
    h.alone (by rw [hphase]; rfl) hv
  refine ⟨fun v hv => h.senders v (hcluster ▸ hv), fun v hv => ?_, fun u hu => ?_, fun v hv => ?_,
    fun key => ?_, fun v x hx key => ?_, fun v hv n hn key => ?_⟩
  · exact hholder.trans (h.holder v ((hflush v).symm.trans hv))
  · obtain ⟨u, hmem, rfl⟩ := List.mem_map.mp hu
    obtain ⟨hw, hc, hl, hwaits, htaken⟩ := h.placed u hmem
    unfold Update.takenBy
    split
    · next hnow =>
        obtain ⟨-, hround, -⟩ := hwaits hnow.2
        refine ⟨hw, hc, hl, (by simp), fun x hx => ?_⟩
        obtain rfl := Option.some.inj hx
        refine ⟨ht, .inr ⟨rfl, hround, ?_⟩⟩
        rw [hphase']
        rfl
    · next hstays =>
        refine ⟨hw, hc, hl, fun hnone => ?_, fun x hx => ?_⟩
        · obtain ⟨hin, hround, hpassed⟩ := hwaits hnone
          have hne : u.entry.1 ≠ next := fun heq => hstays ⟨heq, hnone⟩
          rw [hparams, Function.update_of_ne hne]
          refine ⟨hin, hround, fun x hx => ?_⟩
          by_cases hv : u.worker = t
          · rw [hv, hphase'] at hx
            rw [hv] at hpassed
            obtain rfl := Option.some.inj hx
            exact lt_of_le_of_ne (hpassed _ hphase) hne.symm
          · rw [hphases _ hv] at hx
            exact hpassed x hx
        · rw [hflush]
          exact htaken x hx
  · rw [hcluster]
    exact h.flushes_eq v hv
  · rw [Ledger.carried_took_none hsize hlen, PushBuffer.value, hparams]
    split
    · next hkey =>
        rw [hkey, Function.update_self]
        rfl
    · next hkey =>
        rw [Function.update_of_ne hkey]
        exact h.waiting key
  · obtain rfl := halone v ((hflush v).symm.trans (Option.isSome_iff_exists.mpr ⟨x, hx⟩))
    rw [hphase'] at hx
    obtain rfl := Option.some.inj hx
    have hchunk : (s.buffer.params next).length ≤ C.t.chunkSize :=
      ((hsized next).resolve_left hsome).trans_le (realChunkSize_le hsize next)
    rw [List.flatMap_append, List.flatMap_singleton, written_append, ← h.underway v _ hphase key,
      written_chunkPairs (p := (next, s.buffer.params next)) hsize hchunk]
    show (l.note (v, .took next)).carried C.t (some (v, l.flushes v)) key = _
    rw [Ledger.carried_took_some hsize hlen]
    congr 1
    by_cases hkey : key / C.t.chunkSize = next
    · rw [if_pos ⟨rfl, hkey⟩, if_pos hkey, h.waiting, PushBuffer.value, hkey]
    · rw [if_neg fun hboth => hkey hboth.2, if_neg hkey]
  · rw [hcluster, Ledger.carried_took_some hsize hlen, if_neg, add_zero]
    · exact h.sent v hv n hn key
    · rintro ⟨heq, -⟩
      obtain ⟨rfl, rfl⟩ := Prod.mk.inj heq
      exact lt_irrefl _ hn

end Takes

/-- The flush is sent. -/
theorem LedgerInv.flushed (h : LedgerInv C threads l s) {t next : ℕ}
    {chunks : List (ℕ × List Val)} (ht : t ∈ threads) (hworker : t ∈ C.workers)
    (hphase : (s.phases t).inFlush = some (next, chunks)) (hlast : C.t.chunkNum ≤ next)
    (hparams : s'.buffer.params = s.buffer.params)
    (hpushes : pushes (s'.process.cluster.calls t) = pushes (s.process.cluster.calls t) ++
      [.pushChunks (chunks.map Prod.fst) (chunks.map Prod.snd)])
    (hothers : ∀ v ≠ t,
      pushes (s'.process.cluster.calls v) = pushes (s.process.cluster.calls v))
    (hphase' : (s'.phases t).inFlush = none)
    (hphases : ∀ v ≠ t, (s'.phases v).inFlush = (s.phases v).inFlush) :
    LedgerInv C threads (l.note (t, .flushed chunks)) s' := by
  have halone : ∀ v ≠ t, (s.phases v).inFlush = none := by
    intro v hv
    by_contra hflush
    exact hv (h.alone (by rw [hphase]; rfl) (Option.isSome_iff_ne_none.mpr hflush))
  have hnobody : ∀ v, (s'.phases v).inFlush = none := by
    intro v
    by_cases hv : v = t
    · rw [hv, hphase']
    · rw [hphases v hv, halone v hv]
  have hflushes : ∀ v ≠ t, (l.note (t, .flushed chunks)).flushes v = l.flushes v := fun v hv =>
    Function.update_of_ne hv _ _
  have hflushes' : (l.note (t, .flushed chunks)).flushes t = l.flushes t + 1 :=
    Function.update_self ..
  refine ⟨fun v hv => ?_, fun v hv => ?_, fun u hu => ?_, fun v hv => ?_, fun key => ?_,
    fun v x hx => ?_, fun v hv n hn key => ?_⟩
  · by_cases hvt : v = t
    · exact hvt ▸ hworker
    · rw [hothers v hvt] at hv
      exact h.senders v hv
  · rw [hnobody] at hv
    cases hv
  · obtain ⟨hw, hc, hl, hwaits, htaken⟩ := h.placed u hu
    refine ⟨hw, hc, hl, fun hnone => ?_, fun x hx => ?_⟩
    · obtain ⟨hin, hround, hpassed⟩ := hwaits hnone
      -- the flush has passed all chunks, so nothing of its worker is left
      have hne : u.worker ≠ t := by
        rintro hu
        rw [hu] at hpassed
        exact absurd (hc.trans_le hlast) (not_lt.mpr (hpassed _ hphase))
      rw [hparams, hflushes _ hne, hnobody]
      exact ⟨hin, hround, fun x hx => by cases hx⟩
    · obtain ⟨hmem, hcases⟩ := htaken x hx
      refine ⟨hmem, .inl ?_⟩
      by_cases hxt : x.1 = t
      · rw [hxt] at hcases
        rw [hxt, hflushes']
        rcases hcases with hlt | ⟨heq, -⟩ <;> omega
      · rw [hflushes _ hxt]
        refine hcases.resolve_right fun hflush => ?_
        rw [halone _ hxt] at hflush
        cases hflush.2.2
  · by_cases hvt : v = t
    · subst hvt
      rw [hflushes', h.flushes_eq v hv, hpushes, List.length_append, List.length_singleton]
    · rw [hflushes v hvt, hothers v hvt]
      exact h.flushes_eq v hv
  · rw [PushBuffer.value, hparams]
    exact h.waiting key
  · rw [hnobody] at hx
    cases hx
  · by_cases hvt : v = t
    · subst hvt
      rw [hflushes', Nat.lt_succ_iff_lt_or_eq] at hn
      rcases hn with hn | rfl
      · have hlt := h.flushes_eq v hv ▸ hn
        rw [contribution, hpushes, List.getElem?_append_left hlt]
        exact h.sent v hv n hn key
      · have hzip : (chunks.map Prod.fst).zip (chunks.map Prod.snd) = chunks := by
          rw [List.zip_map']
          exact List.map_id _
        rw [contribution, hpushes, h.flushes_eq v hv, List.getElem?_concat_length, Option.map_some,
          Option.getD_some, Call.entries, hzip, ← h.underway v _ hphase key, h.flushes_eq v hv]
        rfl
    · rw [contribution_congr (hothers v hvt)]
      rw [hflushes v hvt] at hn
      exact h.sent v hv n hn key

omit [StorageT S Val] [AddCommMonoid Val] in
/-- A worker that stays out of the loop of `Flush`, or at its place in it. -/
theorem inFlush_update {phases : ℕ → NoneChunkPhase Val} {t : ℕ} {phase : NoneChunkPhase Val}
    (hphase : phase.inFlush = (phases t).inFlush) (v : ℕ) :
    (Function.update phases t phase v).inFlush = (phases v).inFlush := by
  by_cases hv : v = t
  · rw [hv, Function.update_self, hphase]
  · rw [Function.update_of_ne hv]

/-- A worker goes on with its call. -/
theorem LedgerInv.proceed (h : LedgerInv C threads l s) (hinv : NoneChunkInv C threads s) {t : ℕ}
    (ht : t ∈ threads) (hstep : s.proceed C t = some (s', o)) :
    LedgerInv C threads (o.foldl Ledger.note l) s' := by
  have hsound := hinv.sound t
  have hcounted := hinv.counted t ht
  have hpulled := hinv.pulled t
  unfold NoneChunkSystem.proceed at hstep
  split at hstep
  · cases hstep
  · cases hstep
  · next p todo hphase =>
      rw [hphase] at hsound hcounted
      have hworker : t ∈ C.workers := by
        refine h.senders t (List.ne_nil_of_length_pos ?_)
        rw [show (pushes (s.process.cluster.calls t)).length = _ from hcounted]
        exact hpulled (by simp [hphase])
      obtain ⟨hp, -⟩ := List.forall_mem_cons.mp hsound
      obtain ⟨buffer, hadd, hstep⟩ := Option.bind_eq_some_iff.mp hstep
      obtain ⟨rfl, rfl⟩ := Prod.mk.inj (Option.some.inj hstep)
      exact h.buffered hinv.buffer ht hworker (by rw [hphase]; rfl) hp.1 hp.2 hadd rfl
        (inFlush_update (by rw [hphase]; rfl))
  · next hphase =>
      obtain ⟨rfl, rfl⟩ := Prod.mk.inj (Option.some.inj hstep)
      exact h.frame rfl (inFlush_update (by rw [hphase]; rfl)) (fun _ _ => rfl) h.senders
  · next ids hphase =>
      split at hstep
      · next hfree =>
          obtain ⟨rfl, rfl⟩ := Prod.mk.inj (Option.some.inj hstep)
          refine h.locked hfree rfl rfl rfl ?_ fun v hv => ?_
          · exact congrArg NoneChunkPhase.inFlush (Function.update_self t _ s.phases)
          · exact congrArg NoneChunkPhase.inFlush (Function.update_of_ne hv _ _)
      · cases hstep
  · next ids next chunks hphase =>
      have hat : (s.phases t).inFlush = some (next, chunks) := by
        rw [hphase]
        rfl
      split at hstep
      · rcases htake : s.buffer.take next with ⟨buffer, new⟩
        rw [htake] at hstep
        obtain ⟨rfl, rfl⟩ := Prod.mk.inj (Option.some.inj hstep)
        have hphase' : (Function.update s.phases t
            (.flushing ids (next + 1) (chunks ++ new)) t).inFlush =
              some (next + 1, chunks ++ new) := by
          rw [Function.update_self]
          rfl
        have hphases : ∀ v ≠ t, (Function.update s.phases t
            (.flushing ids (next + 1) (chunks ++ new)) v).inFlush = (s.phases v).inFlush :=
          fun v hv => congrArg NoneChunkPhase.inFlush (Function.update_of_ne hv _ _)
        unfold PushBuffer.take at htake
        split at htake
        · next hempty =>
            obtain ⟨rfl, rfl⟩ := Prod.mk.inj htake
            rw [show chunks = chunks ++ [] from (List.append_nil chunks).symm] at hat
            exact h.passes hat rfl hphases (List.isEmpty_iff.mp hempty) rfl hphase'
        · next hsome =>
            obtain ⟨rfl, rfl⟩ := Prod.mk.inj htake
            exact h.took hat rfl hphases ht hinv.buffer
              (fun hnil => hsome (by rw [hnil]; rfl)) rfl rfl hphase'
      · next hlast =>
          obtain ⟨⟨process, seen⟩, hsend, hstep⟩ := Option.bind_eq_some_iff.mp hstep
          obtain ⟨rfl, rfl⟩ := Prod.mk.inj (Option.some.inj hstep)
          obtain ⟨-, cluster, hcall, rfl⟩ := processStep_send hsend
          obtain ⟨hworker, rfl⟩ := C.send_eq hcall
          refine h.flushed ht hworker hat (not_lt.mp hlast) rfl ?_ (fun v hv => ?_) ?_ fun v hv => ?_
          · simp only [Function.update_self, NoneChunkSystem.put, pushes, List.filter_append]
            rfl
          · simp only [Function.update_of_ne hv, NoneChunkSystem.put]
          · exact congrArg NoneChunkPhase.inFlush (Function.update_self t _ s.phases)
          · exact congrArg NoneChunkPhase.inFlush (Function.update_of_ne hv _ _)
  · next ids hphase =>
      obtain ⟨⟨process, seen⟩, hcall, hstep⟩ := Option.bind_eq_some_iff.mp hstep
      obtain ⟨rfl, rfl⟩ := Prod.mk.inj (Option.some.inj hstep)
      have hcluster := (processStep_call hcall).1
      refine h.frame rfl (inFlush_update (by rw [hphase]; rfl)) (fun v _ => ?_) fun v hv => ?_
      · show pushes (process.cluster.calls v) = _
        rw [hcluster]
      · refine h.senders v ?_
        rw [← hcluster]
        exact hv

/-- The process goes on. -/
theorem LedgerInv.background (h : LedgerInv C threads l s) (hinv : NoneChunkInv C threads s)
    {i : ProcessInput Val} (hi : i.background = true) {process : ProcessState S Val}
    {seen : List (CacheEvent Val)} (hstep : processStep C s.process i = some (process, seen))
    (hfinish : NoneChunkSystem.finish { s with process } seen = some (s', o)) :
    LedgerInv C threads (o.foldl Ledger.note l) s' := by
  have hback := processStep_background hi hstep
  have hsenders : ∀ v, pushes (process.cluster.calls v) ≠ [] → v ∈ C.workers := fun v hv =>
    h.senders v (by rwa [← hback.pushes_eq v])
  unfold NoneChunkSystem.finish at hfinish
  split at hfinish
  · next t ids minClock copies =>
      obtain ⟨rfl, rfl⟩ := Prod.mk.inj (Option.some.inj hfinish)
      obtain ⟨-, -, c, hcopying⟩ := processStep_returnsChunks hstep
      have hcurrent := hinv.current t
      rw [hcopying] at hcurrent
      have hphase : (s.phases t).inFlush = none := by
        cases hp : s.phases t with
        | flushing ids next chunks =>
            rw [hp] at hcurrent
            cases hcurrent
        | _ => rfl
      exact h.frame rfl (inFlush_update hphase.symm) (fun v _ => hback.pushes_eq v) hsenders
  · obtain ⟨rfl, rfl⟩ := Prod.mk.inj (Option.some.inj hfinish)
    exact h.frame rfl (fun _ => rfl) (fun v _ => hback.pushes_eq v) hsenders

/-- **Every step keeps the ledger.** -/
theorem ledgerInv_step (h : LedgerInv C threads l s) (hinv : NoneChunkInv C threads s)
    {i : NoneChunkInput Val} (hstep : noneChunkStep C threads s i = some (s', o)) :
    LedgerInv C threads (o.foldl Ledger.note l) s' := by
  cases i with
  | other v call =>
      simp only [noneChunkStep] at hstep
      split at hstep
      · cases hstep
      · next hout =>
          obtain ⟨⟨process, seen⟩, hprocess, hstep⟩ := Option.bind_eq_some_iff.mp hstep
          obtain ⟨rfl, rfl⟩ := Prod.mk.inj (Option.some.inj hstep)
          obtain ⟨-, cluster, hsend, rfl⟩ := processStep_send hprocess
          obtain ⟨hworker, rfl⟩ := C.send_eq hsend
          refine h.frame rfl (fun _ => rfl) (fun t ht => ?_) fun u hu => ?_
          · have hne : t ≠ v := fun heq => hout (heq ▸ ht)
            simp only [Function.update_of_ne hne]
          · by_cases huv : u = v
            · exact huv ▸ hworker
            · simp only [Function.update_of_ne huv] at hu
              exact h.senders u hu
  | background i =>
      simp only [noneChunkStep] at hstep
      split at hstep
      · next hi =>
          obtain ⟨⟨process, seen⟩, hprocess, hfinish⟩ := Option.bind_eq_some_iff.mp hstep
          exact h.background hinv hi hprocess hfinish
      · cases hstep
  | pullChunks t ids =>
      simp only [noneChunkStep] at hstep
      split at hstep
      · next hphase =>
          split at hstep
          · obtain ⟨rfl, rfl⟩ := Prod.mk.inj (Option.some.inj hstep)
            exact h.frame rfl (inFlush_update (by rw [hphase]; rfl)) (fun _ _ => rfl) h.senders
          · cases hstep
      · cases hstep
  | pushChunks t ids chunks =>
      simp only [noneChunkStep] at hstep
      split at hstep
      · next hphase =>
          split at hstep
          · obtain ⟨rfl, rfl⟩ := Prod.mk.inj (Option.some.inj hstep)
            exact h.frame rfl (inFlush_update (by rw [hphase]; rfl)) (fun _ _ => rfl) h.senders
          · cases hstep
      · cases hstep
  | proceed t =>
      simp only [noneChunkStep] at hstep
      split at hstep
      · next ht => exact h.proceed hinv ht hstep
      · cases hstep

theorem LedgerInv.sentOnce (h : LedgerInv C threads l s) : SentOnce C threads l s where
  flushes_eq := h.flushes_eq
  waiting := h.waiting
  taken u hu x hx := by
    obtain ⟨hmem, hcases⟩ := (h.placed u hu).taken x hx
    exact ⟨hmem, hcases.imp_right fun ⟨hn, _, hflush⟩ => ⟨hn, hflush⟩⟩
  sent := h.sent

/-- **Updates taken in turn are there in time**: all pushes below a clock contain them. -/
theorem LedgerInv.covered (h : LedgerInv C threads l s) (hturn : l.InTurn) {m : ℕ}
    {A : Finset (ℕ × ℕ)} (hsent : C.Sent s.process.cluster.calls A)
    (hbelow : ∀ v ∈ C.workers, ∀ c < m, (v, c) ∈ A) : l.Covered m A := by
  intro u hu hround
  obtain ⟨⟨hworker, hmem⟩, -, -, hwaits, htaken⟩ := h.placed u hu
  -- its worker has flushed since it put the update in
  have hflushed : u.round ≠ l.flushes u.worker := by
    have hlast := (hsent _ (hbelow u.worker hworker (m - 1) (by omega))).2
    rw [h.flushes_eq u.worker hmem]
    simp only at hlast
    omega
  cases hflush : u.flush with
  | none => exact absurd (hwaits hflush).2.1 hflushed
  | some x =>
      obtain ⟨hx, hcases⟩ := htaken x hflush
      have hlt := hcases.resolve_right fun hunsent => hflushed hunsent.2.1
      have hpushed : pushes (s.process.cluster.calls x.1) ≠ [] := by
        rw [h.flushes_eq x.1 hx] at hlt
        exact List.ne_nil_of_length_pos (by omega)
      exact ⟨x, hbelow x.1 (h.senders x.1 hpushed) x.2 ((hturn u hu x hflush).trans_lt hround), rfl⟩

/-- The servers have in time what was taken in turn. -/
theorem LedgerInv.appliedInTime (h : LedgerInv C threads l s) (hturn : l.InTurn)
    (hcluster : ClusterInv C s.process.cluster) : AppliedInTime C l s.process.cluster where
  stored i hi hstarted := by
    obtain ⟨A, hstored, hsent, hbelow⟩ := hcluster.stored hi hstarted
    exact ⟨A, hstored, h.covered hturn hsent hbelow⟩
  answered i hi q r hr w k call hkey hcall hpull := by
    obtain ⟨hsrc, hts⟩ := Prod.mk.inj hkey
    obtain ⟨m, A, hanswer⟩ := hcluster.answer hi hr hsrc hts hcall hpull
    exact ⟨m, A, hanswer, h.covered hturn hanswer.sent hanswer.below⟩

/-- Only a worker in the loop of `Flush` takes a chunk out of the buffer. -/
theorem noneChunkStep_took {i : NoneChunkInput Val}
    (hstep : noneChunkStep C threads s i = some (s', o)) : (∀ e ∈ o, ∀ c, e.2 ≠ .took c) ∨
      ∃ t, i = .proceed t ∧ ∃ x ∈ (s.phases t).inFlush, x.1 < C.t.chunkNum ∧
        o = [(t, .took x.1)] := by
  cases i with
  | other v call =>
      simp only [noneChunkStep] at hstep
      split at hstep
      · cases hstep
      · obtain ⟨⟨process, seen⟩, -, hstep⟩ := Option.bind_eq_some_iff.mp hstep
        obtain ⟨-, rfl⟩ := Prod.mk.inj (Option.some.inj hstep)
        exact .inl (by simp)
  | background i =>
      simp only [noneChunkStep] at hstep
      split at hstep
      · obtain ⟨⟨process, seen⟩, -, hfinish⟩ := Option.bind_eq_some_iff.mp hstep
        unfold NoneChunkSystem.finish at hfinish
        split at hfinish
        · obtain ⟨-, rfl⟩ := Prod.mk.inj (Option.some.inj hfinish)
          exact .inl (by simp)
        · obtain ⟨-, rfl⟩ := Prod.mk.inj (Option.some.inj hfinish)
          exact .inl (by simp)
      · cases hstep
  | pullChunks t ids | pushChunks t ids chunks =>
      simp only [noneChunkStep] at hstep
      split at hstep
      · split at hstep
        · obtain ⟨-, rfl⟩ := Prod.mk.inj (Option.some.inj hstep)
          exact .inl (by simp)
        · cases hstep
      · cases hstep
  | proceed t =>
      simp only [noneChunkStep] at hstep
      split at hstep
      · unfold NoneChunkSystem.proceed at hstep
        split at hstep
        · cases hstep
        · cases hstep
        · obtain ⟨buffer, -, hstep⟩ := Option.bind_eq_some_iff.mp hstep
          obtain ⟨-, rfl⟩ := Prod.mk.inj (Option.some.inj hstep)
          exact .inl (by simp)
        · obtain ⟨-, rfl⟩ := Prod.mk.inj (Option.some.inj hstep)
          exact .inl (by simp)
        · split at hstep
          · obtain ⟨-, rfl⟩ := Prod.mk.inj (Option.some.inj hstep)
            exact .inl (by simp)
          · cases hstep
        · next ids next chunks hphase =>
            split at hstep
            · next hlt =>
                rcases htake : s.buffer.take next with ⟨buffer, new⟩
                rw [htake] at hstep
                obtain ⟨-, rfl⟩ := Prod.mk.inj (Option.some.inj hstep)
                unfold PushBuffer.take at htake
                split at htake
                · obtain ⟨-, rfl⟩ := Prod.mk.inj htake
                  exact .inl (by simp)
                · obtain ⟨-, rfl⟩ := Prod.mk.inj htake
                  exact .inr ⟨t, rfl, (next, chunks), by rw [hphase]; rfl, hlt, rfl⟩
            · obtain ⟨⟨process, seen⟩, -, hstep⟩ := Option.bind_eq_some_iff.mp hstep
              obtain ⟨-, rfl⟩ := Prod.mk.inj (Option.some.inj hstep)
              exact .inl (by simp)
        · obtain ⟨⟨process, seen⟩, -, hstep⟩ := Option.bind_eq_some_iff.mp hstep
          obtain ⟨-, rfl⟩ := Prod.mk.inj (Option.some.inj hstep)
          exact .inl (by simp)
      · cases hstep

omit [StorageT S Val] [AddCommMonoid Val] in
/-- Only what is taken out gets a flush. -/
theorem Ledger.InTurn.note (h : l.InTurn) {e : ℕ × NoneChunkEvent Val}
    (he : ∀ c, e.2 ≠ .took c) : (l.note e).InTurn := by
  obtain ⟨t, e⟩ := e
  cases e with
  | buffered p =>
      intro u hu x hx
      rcases List.mem_append.mp hu with hu | hu
      · exact h u hu x hx
      · obtain rfl := List.mem_singleton.mp hu
        cases hx
  | took c => exact absurd rfl (he c)
  | flushed chunks => exact h
  | pulledChunks ids chunks => exact h

/-- **A step in turn** keeps the flushes in turn. -/
theorem inTurn_step {out : List (ℕ × NoneChunkEvent Val)} (h : (Ledger.after out).InTurn)
    {i : NoneChunkInput Val} (hi : TakenInTurn C.t out s i)
    (hstep : noneChunkStep C threads s i = some (s', o)) : (Ledger.after (out ++ o)).InTurn := by
  rw [Ledger.after_append]
  rcases noneChunkStep_took hstep with hnone | ⟨t, rfl, x, hx, hlt, rfl⟩
  · generalize Ledger.after out = l at h
    clear hstep
    induction o generalizing l with
    | nil => exact h
    | cons e o ih =>
        obtain ⟨he, ho⟩ := List.forall_mem_cons.mp hnone
        exact ih ho _ (h.note he)
  · intro u hu y hy
    obtain ⟨u, hmem, rfl⟩ := List.mem_map.mp hu
    unfold Update.takenBy at hy ⊢
    split at hy
    · next hnow =>
        rw [if_pos hnow]
        obtain rfl := Option.some.inj hy
        exact hi x hx hlt u hmem hnow.1 hnow.2
    · next hstays =>
        rw [if_neg hstays]
        exact h u hmem y hy

end Invariant

/-- **Buffered updates are sent once, and applied in time when they are taken in turn.**  In every
run of `PSNoneChunkWorker`s that pull and push chunks, whatever the other workers call and in
whatever order threads move and messages are delivered, every update that is put into the buffer is
sent by exactly one flush.  In every run in which a worker that flushes for the `n`-th time takes out
only updates of workers that had flushed at least `n - 1` times when they put them in, a server with
clock `m` has applied every update that was put in before the `m`-th flush of its worker. -/
theorem bufferedPushes_applied {S Val : Type} [StorageT S Val] [AddCommMonoid Val]
    (C : Cluster S Val) (threads : Finset ℕ) {is : List (NoneChunkInput Val)}
    {s : NoneChunkSystem S Val} {out : List (ℕ × NoneChunkEvent Val)}
    (hvalid : ∀ i ∈ is, i.Valid C.t)
    (hrun : run (noneChunkStep C threads) (.init C) is = some (s, out)) :
    SentOnce C threads (.after out) s ∧
      (Along (noneChunkStep C threads) (TakenInTurn C.t) [] (.init C) is →
        AppliedInTime C (.after out) s.process.cluster) := by
  have hinv := run_along (I := fun out s => NoneChunkInv C threads s ∧
    LedgerInv C threads (.after out) s) ?_
    ⟨noneChunkInv_init C threads, show LedgerInv C threads (.after []) _ from
      ledgerInv_init C threads⟩ (along_of_forall hvalid [] _) hrun
  · refine ⟨hinv.2.sentOnce, fun hturn => ?_⟩
    have hinTurn : (Ledger.after out).InTurn := by
      refine run_along (I := fun out _ => (Ledger.after out).InTurn) ?_
        (show (Ledger.after []).InTurn from fun u hu => by cases hu) hturn hrun
      exact fun h hi hstep => inTurn_step h hi hstep
    obtain ⟨seen, hprocess⟩ := hinv.1.process
    exact hinv.2.appliedInTime hinTurn hprocess.cluster
  · intro out s i s' o hI hi hstep
    refine ⟨noneChunkInv_step hI.1 hi hstep, ?_⟩
    rw [Ledger.after_append]
    exact ledgerInv_step hI.2 hI.1 hstep

/-- Both servers get the next message of worker `t`. -/
def deliveredFlush (t : ℕ) : List (NoneChunkInput ℤ) :=
  [.background (.deliver 0 t), .background (.deliver 1 t)]

/-- Worker `t` fetches chunk 0 into the cache of the process, and its pull returns. -/
def fetchedChunk (t : ℕ) : List (NoneChunkInput ℤ) :=
  List.replicate 5 (.background (.proceed t)) ++
    [.background (.fetch t), .background (.deliver 0 t), .background (.arrive t [0])] ++
    List.replicate 4 (.background (.proceed t))

/-- Worker `t` finds chunk 0 in the cache of the process. -/
def copiedChunk (t : ℕ) : List (NoneChunkInput ℤ) := List.replicate 4 (.background (.proceed t))

/-- Worker `t` puts an update of chunk 0 into the buffer. -/
def bufferedPush (t : ℕ) (v : ℤ) : List (NoneChunkInput ℤ) :=
  [.pushChunks t [0] [[v, v]], .proceed t, .proceed t]

/-- Worker 0 has flushed once and put 1000 into the buffer; worker 1 has flushed twice, with an
update of its own in the second flush, and put in 100. -/
def twoUpdates : List (NoneChunkInput ℤ) :=
  deliveredFlush 0 ++ deliveredFlush 1 ++ flushedPull 0 ++ deliveredFlush 0 ++ fetchedChunk 0 ++
    flushedPull 1 ++ deliveredFlush 1 ++ copiedChunk 1 ++ bufferedPush 1 1 ++ flushedPull 1 ++
    deliveredFlush 1 ++ fetchedChunk 1 ++ bufferedPush 0 1000 ++ bufferedPush 1 100

/-- Worker 1 flushes both updates; while its message is on the way, worker 0 flushes twice more, and
its third pull is answered at clock 2. -/
def lateFlush : List (NoneChunkInput ℤ) :=
  twoUpdates ++ flushedPull 1 ++ flushedPull 0 ++ deliveredFlush 0 ++ copiedChunk 0 ++
    bufferedPush 0 10 ++ flushedPull 0 ++ deliveredFlush 0 ++ fetchedChunk 0

set_option maxRecDepth 4000 in
/-- The update of 1000 was put in before the second flush of worker 0 and is in the third flush of
worker 1.  A server that has not got that one yet answers at clock 2, with the updates of 1 and 10
only. -/
theorem bufferedPushes_late : ∃ s out,
    run (noneChunkStep (pairCluster 1) {0, 1}) (.init (pairCluster 1)) lateFlush = some (s, out) ∧
    (∀ i ∈ lateFlush, i.Valid (pairCluster 1).t) ∧
    ¬ AppliedInTime (pairCluster 1) (.after out) s.process.cluster := by
  have hrun : ∃ s out,
      run (noneChunkStep (pairCluster 1) {0, 1}) (.init (pairCluster 1)) lateFlush =
        some (s, out) ∧
      (s.process.cluster.replies 0)[6]? = some
        { kvId := 0, ts := 5, cmd := 11, push := false, src := 0, res := ⟨[0], [11, 11]⟩,
          minClock := 2 } ∧
      (s.process.cluster.calls 0)[4]? = some (.pullChunksWithMinClock [0] [[]]) ∧
      pushes (s.process.cluster.calls 0) = [.pushChunks [] [], .pushChunks [] [],
        .pushChunks [0] [[10, 10]]] ∧
      pushes (s.process.cluster.calls 1) = [.pushChunks [] [], .pushChunks [0] [[1, 1]],
        .pushChunks [0] [[1100, 1100]]] ∧
      ⟨0, 1, (0, [1000, 1000]), some (1, 2)⟩ ∈ (Ledger.after out).updates :=
    ⟨_, _, rfl, rfl, rfl, rfl, rfl, .tail _ (.head _)⟩
  obtain ⟨s, out, hrun, hreply, hcall, h₀, h₁, hupdate⟩ := hrun
  refine ⟨s, out, hrun, by decide, fun happlied => ?_⟩
  obtain ⟨m, A, hanswer, hcovered⟩ :=
    happlied.answered 0 (by decide) 6 _ hreply 0 4 _ rfl hcall rfl
  have hclock : (2 : ℤ) = m := hanswer.minClock_eq rfl
  obtain ⟨x, hx, hflush⟩ := hcovered _ hupdate (show 1 < m by omega)
  obtain rfl := Option.some.inj hflush
  -- the reply lacks the 1100 of that flush
  have hvals : [(11 : ℤ), 11] = [0, 1].map ((pairCluster 1).held s.process.cluster.calls A) :=
    congrArg KVPairs.vals hanswer.res_eq
  have hvalue := (List.cons.inj hvals).1
  have hnonneg : ∀ y ∈ A, ∀ push ∈ pushes (s.process.cluster.calls y.1),
      ∀ e ∈ push.entries (pairCluster 1).t, 0 ≤ e.2 := by
    intro y hy
    have hworker : y.1 < 2 := Finset.mem_range.mp (hanswer.sent y hy).1
    have hcases : y.1 = 0 ∨ y.1 = 1 := by omega
    rcases hcases with hy | hy <;> rw [hy]
    · rw [h₀]
      decide
    · rw [h₁]
      decide
  have hle := Cluster.contribution_le_held (C := pairCluster 1) hx hnonneg 0
  have hpush : contribution (pairCluster 1).t s.process.cluster.calls (1, 2) 0 = 1100 := by
    rw [contribution, h₁]
    rfl
  have hbase : (pairCluster 1).base 0 = 0 := rfl
  rw [hpush, hbase, ← hvalue] at hle
  omega

/-- Worker 0 flushes its update itself before worker 1 flushes again; the third pull of worker 0 is
answered as before. -/
def inTurnFlush : List (NoneChunkInput ℤ) :=
  twoUpdates ++ flushedPull 0 ++ deliveredFlush 0 ++ copiedChunk 0 ++ flushedPull 1 ++
    bufferedPush 0 10 ++ flushedPull 0 ++ deliveredFlush 0 ++ fetchedChunk 0

set_option maxRecDepth 4000 in
/-- The second flush of worker 0, with its update of 1000, is in what server 0 answers at clock 2. -/
theorem bufferedPushes_applied_inTurnFlush : ∃ s out,
    run (noneChunkStep (pairCluster 1) {0, 1}) (.init (pairCluster 1)) inTurnFlush =
      some (s, out) ∧
    SentOnce (pairCluster 1) {0, 1} (.after out) s ∧
    (s.process.cluster.replies 0)[7]? = some
      { kvId := 0, ts := 5, cmd := 11, push := false, src := 0, res := ⟨[0], [1111, 1111]⟩,
        minClock := 2 } ∧
    ∃ A, (pairCluster 1).Answer s.process.cluster 0 7 0 4 (.pullChunksWithMinClock [0] [[]])
      { kvId := 0, ts := 5, cmd := 11, push := false, src := 0, res := ⟨[0], [1111, 1111]⟩,
        minClock := 2 } 2 A ∧ (0, 1) ∈ A := by
  have hvalid : ∀ i ∈ inTurnFlush, i.Valid (pairCluster 1).t := by decide
  have hturn : Along (noneChunkStep (pairCluster 1) {0, 1}) (TakenInTurn (pairCluster 1).t) []
      (.init (pairCluster 1)) inTurnFlush := by decide +kernel
  have hrun : ∃ s out,
      run (noneChunkStep (pairCluster 1) {0, 1}) (.init (pairCluster 1)) inTurnFlush =
        some (s, out) ∧
      (s.process.cluster.replies 0)[7]? = some
        { kvId := 0, ts := 5, cmd := 11, push := false, src := 0, res := ⟨[0], [1111, 1111]⟩,
          minClock := 2 } ∧
      (s.process.cluster.calls 0)[4]? = some (.pullChunksWithMinClock [0] [[]]) ∧
      ⟨0, 1, (0, [1000, 1000]), some (0, 1)⟩ ∈ (Ledger.after out).updates :=
    ⟨_, _, rfl, rfl, rfl, .tail _ (.head _)⟩
  obtain ⟨s, out, hrun, hreply, hcall, hupdate⟩ := hrun
  obtain ⟨honce, happlied⟩ := bufferedPushes_applied (pairCluster 1) {0, 1} hvalid hrun
  obtain ⟨m, A, hanswer, hcovered⟩ :=
    (happlied hturn).answered 0 (by decide) 7 _ hreply 0 4 _ rfl hcall rfl
  have hclock : (2 : ℤ) = m := hanswer.minClock_eq rfl
  obtain rfl : m = 2 := by omega
  obtain ⟨x, hx, hflush⟩ := hcovered _ hupdate (show 1 < 2 by omega)
  obtain rfl := Option.some.inj hflush
  exact ⟨s, out, hrun, honce, hreply, A, hanswer, hx⟩

end FlexPS.ML
