import FlexPS.KVStore.ClusterFetch
import FlexPS.Lib.Lockstep
import FlexPS.ML.CMContent
import FlexPS.ML.PSChunkWorker

/-!
# Chunks in the cache of a worker

A cached chunk holds the store at the start of the epoch plus a set of pushes, each once.  A
chunk that comes from a server holds the pushes the server had applied; a push of the worker adds
to the cached chunks what it adds to the servers.

## Main definitions

* `Read`, `WorkerEvent` — what a pull asks for, and what is seen of a worker.
* `Holds` — a cached chunk and the pushes in it.
* `Holds.push` — the worker pushes.
-/

namespace FlexPS.ML

open KVStore Lib ModelWithCM

variable {S Val : Type}

/-! ## Pulls -/

/-- What a pull asks for: `Pull` or `PullChunks`. -/
inductive Read where
  | keys (keys : List ℕ)
  | chunks (ids : List ℕ)

/-- What is seen of a worker: its pushes, the clocks of the chunks that a pull has prepared with
the clock of the worker, and what its pulls return. -/
inductive WorkerEvent (Val : Type) where
  | pushed
  | prepared (clocks : List (ℕ × ℤ)) (clock : ℕ)
  | pulled (keys : List ℕ) (vals : List Val)
  | pulledChunks (ids : List ℕ) (chunks : List (List Val))

/-- The event is a push. -/
def WorkerEvent.isPush : WorkerEvent Val → Bool
  | pushed => true
  | _ => false

namespace Read

/-- The chunks that a pull prepares. -/
def ids (t : RangeTable) : Read → Option (List ℕ)
  | keys ks => chunksToPrepare t none ks
  | chunks ids => some ids

/-- What a pull copies out of the cached chunks. -/
def handOut (t : RangeTable) (params : ℕ → List Val) : Read → Option (WorkerEvent Val)
  | keys ks => (readKeys t params ks).map (.pulled ks)
  | chunks ids => some (.pulledChunks ids (ids.map params))

/-- Sorted keys or chunk ids in range. -/
def Sorted (t : RangeTable) : Read → Prop
  | keys ks => ValidKeys t ks
  | chunks ids => ids.Pairwise (· ≤ ·) ∧ ∀ c ∈ ids, c < t.chunkNum

instance decidableSorted (t : RangeTable) (r : Read) : Decidable (r.Sorted t) := by
  cases r <;> unfold Sorted <;> infer_instance

/-- Sorted keys or chunk ids in range, with nothing after the last chunk. -/
def Valid (t : RangeTable) : Read → Prop
  | keys ks => ValidKeys t ks
  | chunks ids => t.InOrder ids ∧ ∀ c ∈ ids, c < t.chunkNum

instance (t : RangeTable) (r : Read) : Decidable (r.Valid t) := by
  cases r <;> unfold Valid <;> infer_instance

/-- The chunks that a pull reads. -/
def reads (t : RangeTable) : Read → List ℕ
  | keys ks => ks.map (· / t.chunkSize)
  | chunks ids => ids

/-- A valid pull prepares the chunks that it reads, in order. -/
theorem Valid.ids {t : RangeTable} {n : ℕ} (ht : t.Partitioned n) {r : Read} (h : r.Valid t) :
    ∃ ids, r.ids t = some ids ∧ t.InOrder ids ∧ (∀ c ∈ ids, c < t.chunkNum) ∧
      ∀ c ∈ r.reads t, c ∈ ids := by
  cases r with
  | keys ks =>
      obtain ⟨ids, hids, hstrict, hmem⟩ := chunksToPrepare_spec h.1 h.2 none (by simp)
      have hlt : ∀ c ∈ ids, c < t.chunkNum := by
        intro c hc
        obtain ⟨-, k, hk, rfl⟩ := (hmem c).mp hc
        have hkey := h.2 k hk
        rw [ht.chunkNum_eq]
        exact Nat.lt_succ_of_le (Nat.div_le_div_right (by omega))
      refine ⟨ids, hids, t.inOrder_of_lt hstrict hlt, hlt, fun c hc => ?_⟩
      obtain ⟨k, hk, rfl⟩ := List.mem_map.mp hc
      exact (hmem _).mpr ⟨by simp, k, hk, rfl⟩
  | chunks ids => exact ⟨ids, rfl, h.1, h.2, fun _ hc => hc⟩

/-- A sorted pull prepares the chunks that it reads. -/
theorem Sorted.ids {t : RangeTable} {n : ℕ} (ht : t.Partitioned n) {r : Read} (h : r.Sorted t) :
    ∃ ids, r.ids t = some ids ∧ ids.Pairwise (· ≤ ·) ∧ (∀ c ∈ ids, c < t.chunkNum) ∧
      ∀ c ∈ r.reads t, c ∈ ids := by
  cases r with
  | keys ks =>
      obtain ⟨ids, hids, horder, hlt, hreads⟩ := Valid.ids ht (r := .keys ks) h
      exact ⟨ids, hids, horder.imp And.left, hlt, hreads⟩
  | chunks ids => exact ⟨ids, rfl, h.1, h.2, fun _ hc => hc⟩

end Read

theorem chunkKeys_getElem? (t : RangeTable) (c j : ℕ) : (chunkKeys t c)[j]? =
    if j < t.realChunkSize c then some (c * t.chunkSize + j) else none := by
  rw [chunkKeys]
  split
  · next hj => simp [List.getElem?_range' hj]
  · next hj => exact List.getElem?_eq_none (by simpa using hj)

/-- Every value that the event returns satisfies `P` with its key. -/
def WorkerEvent.Reads (t : RangeTable) (P : ℕ → Val → Prop) : WorkerEvent Val → Prop
  | pulled keys vals => List.Forall₂ P keys vals
  | pulledChunks ids chunks =>
      List.Forall₂ (fun c chunk => List.Forall₂ P (chunkKeys t c) chunk) ids chunks
  | _ => True

/-- **What a pull hands out** are the values of the chunks it reads. -/
theorem reads_handOut {t : RangeTable} {P : ℕ → Val → Prop} {params : ℕ → List Val} {r : Read}
    {e : WorkerEvent Val} (h : r.handOut t params = some e)
    (hchunks : ∀ c ∈ r.reads t, ∃ f, params c = (chunkKeys t c).map f ∧ ∀ key, P key (f key)) :
    e.Reads t P := by
  cases r with
  | keys ks =>
      obtain ⟨vals, hvals, rfl⟩ := Option.map_eq_some_iff.mp h
      have hvals := mapM_eq_some.mp hvals
      refine (List.forall₂_iff_get.mpr ⟨hvals.length_eq, fun i hi hi' => ?_⟩)
      have hget := hvals.get hi hi'
      obtain ⟨⟨c, j⟩, hloc, hv⟩ := Option.bind_eq_some_iff.mp hget
      unfold getLocation at hloc
      split at hloc
      · obtain ⟨rfl, rfl⟩ := Prod.mk.inj (Option.some.inj hloc)
        obtain ⟨f, hf, hP⟩ := hchunks _ (List.mem_map_of_mem (List.getElem_mem hi))
        simp only [List.get_eq_getElem] at hv ⊢
        rw [hf, List.getElem?_map, chunkKeys_getElem?] at hv
        split at hv
        · rw [Option.map_some, Nat.div_add_mod'] at hv
          exact Option.some.inj hv ▸ hP _
        · cases hv
      · cases hloc
  | chunks ids =>
      obtain rfl := Option.some.inj h
      refine List.forall₂_map_right_iff.mpr (List.forall₂_same.mpr fun c hc => ?_)
      obtain ⟨f, hf, hP⟩ := hchunks c hc
      rw [hf]
      exact List.forall₂_map_right_iff.mpr (List.forall₂_same.mpr fun key _ => hP key)

theorem WorkerEvent.Reads.imp {t : RangeTable} {P P' : ℕ → Val → Prop} {e : WorkerEvent Val}
    (h : e.Reads t P) (hP : ∀ key v, P key v → P' key v) : e.Reads t P' := by
  cases e with
  | pulled keys vals => exact List.Forall₂.imp hP h
  | pulledChunks ids chunks => exact List.Forall₂.imp (fun c chunk hc => hc.imp hP) h
  | _ => trivial

/-! ## Adding chunks -/

variable [StorageT S Val] [AddCommMonoid Val]

/-- What a chunk writes to a place. -/
theorem writtenAt_chunkPairs {t : RangeTable} {p : ℕ × List Val}
    (hlen : p.2.length ≤ t.chunkSize) (c j : ℕ) :
    writtenAt t (chunkPairs t.chunkSize p) c j = if c = p.1 then (p.2[j]?).getD 0 else 0 := by
  -- the places of the chunk are consecutive keys
  have hwritten : ∀ (vals : List Val) (start key : ℕ),
      written ((List.range' start vals.length).zip vals) key =
        if start ≤ key then (vals[key - start]?).getD 0 else 0 := by
    intro vals
    induction vals with
    | nil => simp
    | cons v vals ih =>
        intro start key
        rw [List.length_cons, List.range'_succ, List.zip_cons_cons, written_cons, ih]
        rcases Nat.lt_trichotomy start key with hlt | rfl | hgt
        · have hsub : key - start = key - (start + 1) + 1 := by omega
          rw [if_neg hlt.ne, if_pos (by omega), if_pos hlt.le, zero_add, hsub,
            List.getElem?_cons_succ]
        · simp
        · rw [if_neg hgt.ne', if_neg (by omega), if_neg (by omega), add_zero]
  rw [writtenAt, chunkPairs, hwritten]
  by_cases hj : j < t.chunkSize
  · rw [if_pos hj]
    rcases Nat.lt_trichotomy c p.1 with hlt | rfl | hgt
    · have hle : (c + 1) * t.chunkSize ≤ p.1 * t.chunkSize := Nat.mul_le_mul_right _ hlt
      rw [Nat.add_mul, Nat.one_mul] at hle
      rw [if_neg (by omega), if_neg hlt.ne]
    · rw [if_pos (by omega), if_pos rfl, Nat.add_sub_cancel_left]
    · have hle : (p.1 + 1) * t.chunkSize ≤ c * t.chunkSize := Nat.mul_le_mul_right _ hgt
      rw [Nat.add_mul, Nat.one_mul] at hle
      rw [if_neg hgt.ne', List.getElem?_eq_none (by omega)]
      simp
  · rw [if_neg hj, List.getElem?_eq_none (by omega)]
    simp

theorem incChunk_added {t : RangeTable} {params params' : ℕ → List Val} {p : ℕ × List Val}
    (hlen : p.2.length ≤ t.chunkSize) (h : incChunk params p = some params') :
    Added t params params' (chunkPairs t.chunkSize p) := by
  unfold incChunk at h
  split at h
  · next hsame =>
      obtain rfl := Option.some.inj h
      intro c j
      rw [writtenAt_chunkPairs hlen]
      by_cases hc : c = p.1
      · subst hc
        rw [Function.update_self, if_pos rfl, List.getElem?_zipWith]
        by_cases hj : j < p.2.length
        · rw [List.getElem?_eq_getElem hj, List.getElem?_eq_getElem (hsame ▸ hj)]
          rfl
        · rw [List.getElem?_eq_none (by omega), List.getElem?_eq_none (by omega)]
          rfl
      · rw [Function.update_of_ne hc, if_neg hc]
        simp
  · cases h

/-- **The loop of `PushChunks` over the cached chunks** adds what is written to every key. -/
theorem incChunks_added {t : RangeTable} {params params' : ℕ → List Val}
    {chunks : List (ℕ × List Val)} (hlen : ∀ p ∈ chunks, p.2.length ≤ t.chunkSize)
    (h : incChunks params chunks = some params') :
    Added t params params' (chunks.flatMap (chunkPairs t.chunkSize)) := by
  induction chunks generalizing params with
  | nil =>
      obtain rfl := Option.some.inj h
      exact .refl t params
  | cons p chunks ih =>
      simp only [incChunks, List.foldlM_cons, Option.bind_eq_bind, Option.bind_eq_some_iff] at h
      obtain ⟨params₁, hp, hrest⟩ := h
      rw [List.forall_mem_cons] at hlen
      exact (incChunk_added hlen.1 hp).trans (ih hlen.2 hrest)

/-! ## The pushes in a chunk -/

/-- A chunk in the cache of worker `w`, which has pushed `p` times: the store at the start and the
pushes of `A`, among them exactly the `p` pushes of the worker. -/
structure Holds (C : Cluster S Val) (calls : ℕ → List (Call Val)) (w p c : ℕ) (vals : List Val)
    (A : Finset (ℕ × ℕ)) : Prop where
  vals_eq : vals = (chunkKeys C.t c).map (C.held calls A)
  sent : C.Sent calls A
  own : ∀ j, (w, j) ∈ A ↔ j < p

section Holds

variable {C : Cluster S Val} {calls calls' : ℕ → List (Call Val)} {w p c : ℕ} {vals : List Val}
  {A : Finset (ℕ × ℕ)}

/-- What others call changes nothing. -/
theorem Holds.later (h : Holds C calls w p c vals A) (hcalls : ∀ v, calls v <+: calls' v) :
    Holds C calls' w p c vals A := by
  refine ⟨?_, h.sent.later hcalls, h.own⟩
  rw [h.vals_eq]
  exact List.map_congr_left fun key _ => (h.sent.held_later hcalls key).symm

/-- One more push in a set. -/
theorem held_insert {call : Call Val} (hpush : call.isPush = true)
    (hp : (pushes (calls w)).length = p) (hsent : C.Sent calls A) (hA : (w, p) ∉ A) (key : ℕ) :
    C.held (Function.update calls w (calls w ++ [call])) (insert (w, p) A) key =
      C.held calls A key + written (call.entries C.t) key := by
  have hextends := Cluster.calls_extend calls w call
  have hnew : contribution C.t (Function.update calls w (calls w ++ [call])) (w, p) key =
      written (call.entries C.t) key := by
    have hpushes : pushes (calls w ++ [call]) = pushes (calls w) ++ [call] := by
      simp [pushes, hpush]
    rw [contribution, Function.update_self, hpushes, ← hp, List.getElem?_append_right le_rfl,
      Nat.sub_self]
    rfl
  rw [← hsent.held_later hextends key, Cluster.held, Cluster.held, Finset.sum_insert hA, hnew,
    add_comm (written _ _), add_assoc]

/-- A push of the worker makes a chunk that holds some pushes hold one more. -/
theorem held_push {params params' : ℕ → List Val} {call : Call Val} (hpush : call.isPush = true)
    (hp : (pushes (calls w)).length = p) (hsent : C.Sent calls A) (hA : (w, p) ∉ A)
    (hvals : params c = (chunkKeys C.t c).map (C.held calls A))
    (hadded : Added C.t params params' (call.entries C.t)) :
    params' c = (chunkKeys C.t c).map
      (C.held (Function.update calls w (calls w ++ [call])) (insert (w, p) A)) := by
  refine List.ext_getElem? fun j => ?_
  rw [hadded c j, hvals, List.getElem?_map, List.getElem?_map, chunkKeys_getElem?]
  split
  · next hj =>
      have hplace : writtenAt C.t (call.entries C.t) c j =
          written (call.entries C.t) (c * C.t.chunkSize + j) :=
        if_pos (hj.trans_le (realChunkSize_le C.partitioned.chunkSize_pos c))
      rw [Option.map_some, Option.map_some, Option.map_some, hplace,
        held_insert hpush hp hsent hA]
  · rfl

omit [AddCommMonoid Val] in
/-- The push has been called then. -/
theorem sent_push {call : Call Val} (hw : w ∈ C.workers) (hpush : call.isPush = true)
    (hp : (pushes (calls w)).length = p) (hsent : C.Sent calls A) :
    C.Sent (Function.update calls w (calls w ++ [call])) (insert (w, p) A) := by
  intro x hx
  rcases Finset.mem_insert.mp hx with rfl | hx
  · refine ⟨hw, ?_⟩
    rw [Function.update_self]
    simp [pushes, hpush, ← hp]
  · exact hsent.later (Cluster.calls_extend calls w call) x hx

/-- **The worker pushes**: what it adds to the chunk is one more push in it. -/
theorem Holds.push {params params' : ℕ → List Val} {call : Call Val}
    (h : Holds C calls w p c (params c) A) (hw : w ∈ C.workers)
    (hp : (pushes (calls w)).length = p) (hpush : call.isPush = true)
    (hadded : Added C.t params params' (call.entries C.t)) :
    Holds C (Function.update calls w (calls w ++ [call])) w (p + 1) c (params' c)
      (insert (w, p) A) := by
  have hA : (w, p) ∉ A := fun hmem => lt_irrefl p ((h.own p).mp hmem)
  refine ⟨held_push hpush hp h.sent hA h.vals_eq hadded, sent_push hw hpush hp h.sent, fun j => ?_⟩
  rw [Finset.mem_insert, h.own, Prod.mk.injEq]
  constructor
  · rintro (⟨-, rfl⟩ | hj)
    · exact Nat.lt_succ_self j
    · exact Nat.lt_succ_of_lt hj
  · intro hj
    rcases Nat.lt_succ_iff_lt_or_eq.mp hj with hj | rfl
    · exact .inr hj
    · exact .inl ⟨rfl, rfl⟩

end Holds

end FlexPS.ML
