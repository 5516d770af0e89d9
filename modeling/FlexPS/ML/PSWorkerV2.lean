import FlexPS.ML.PSMapWorker
import FlexPS.ML.PSChunkWorker

/-!
# The second interface of the workers

`Prepare_v2` pulls, `Update_v2` collects updates by index in a vector of deltas, and `Clock_v2`
pushes the deltas.  Three of the four workers with a thread cache also add every update to the
cache at once, and the push of `Clock_v2` adds it again.

## Main definitions

* `PSWorker`, `PSWorker.pull`, `PSWorker.push` — the four workers and their first interface.
* `V2`, `PSWorker.prepareV2`, `V2.updateV2`, `V2.clockV2` — the second interface.
* `v2_equals_v1` — what the second interface leaves in the cache and sends.
-/

namespace FlexPS.ML

open KVStore Lib ModelWithCM

variable {Val : Type}

/-! ## The interfaces -/

/-- The workers with a thread cache. -/
inductive PSWorker (Val : Type) [Zero Val] where
  | mapNone (w : PSMapWorker Val)
  | chunkNone (w : PSChunkNoneWorker Val)
  | mapChunk (w : PSMapWorker Val)
  | chunkChunk (w : PSChunkChunkWorker Val)

/-- What a fetch would return: values of keys, or chunks, and one clock or one per chunk. -/
structure Replies (Val : Type) where
  value : ℕ → Val
  chunk : ℕ → List Val
  clock : ℤ
  clocks : ℕ → ℤ

section Interfaces

variable [AddCommMonoid Val] (t : RangeTable) (staleness : ℕ)

namespace PSWorker

/-- `Pull`. -/
def pull (r : Replies Val) : PSWorker Val → List ℕ → Option (PSWorker Val × List Val)
  | mapNone w, keys =>
      (PSMapNoneWorker.pull staleness w keys r.value).map fun p => (mapNone p.1, p.2)
  | chunkNone w, keys =>
      (w.pull t staleness keys r.chunk r.clock).map fun p => (chunkNone p.1, p.2)
  | mapChunk w, keys =>
      (PSMapChunkWorker.pull staleness w keys r.value r.clock).map fun p => (mapChunk p.1, p.2)
  | chunkChunk w, keys =>
      (w.pull t staleness keys r.chunk r.clocks).map fun p => (chunkChunk p.1, p.2)

/-- `Push`: the worker afterwards and what is sent. -/
def push : PSWorker Val → List ℕ → List Val → Option (PSWorker Val × List (ℕ × Val))
  | mapNone w, keys, vals => (w.push keys vals).map fun p => (mapNone p.1, p.2)
  | chunkNone w, keys, vals => (w.push t keys vals).map fun p => (chunkNone p.1, p.2)
  | mapChunk w, keys, vals => (w.push keys vals).map fun p => (mapChunk p.1, p.2)
  | chunkChunk w, keys, vals => (w.push t keys vals).map fun p => (chunkChunk p.1, p.2)

end PSWorker

/-- A worker between `Prepare_v2` and `Clock_v2`; only `PSMapNoneWorker` has `vals_`. -/
structure V2 (Val : Type) [Zero Val] where
  worker : PSWorker Val
  keys : List ℕ
  vals : List Val
  delta : List Val

/-- `Prepare_v2`. -/
def PSWorker.prepareV2 (r : Replies Val) (w : PSWorker Val) (keys : List ℕ) : Option (V2 Val) :=
  let zeros := List.replicate keys.length 0
  match w with
  | mapNone w => do
      let (w, vals) ← PSMapNoneWorker.pull staleness w keys r.value
      some ⟨mapNone w, keys, vals, zeros⟩
  | chunkNone w => do
      let ids ← chunksToPrepare t none keys
      let model := w.model.prepareChunks staleness ids r.chunk r.clock
      some ⟨chunkNone { w with model, pullCount := w.pullCount + 1 }, keys, [], zeros⟩
  | mapChunk w =>
      let w := PSMapChunkWorker.prepare staleness w.countPull keys r.value r.clock
      some ⟨mapChunk w, keys, [], zeros⟩
  | chunkChunk w => do
      let ids ← chunksToPrepare t none keys
      let w := w.countPull.prepareChunks staleness ids r.chunk r.clocks
      some ⟨chunkChunk w, keys, [], zeros⟩

namespace V2

/-- What an update adds to the thread cache, and to `vals_`. -/
def inc (w : PSWorker Val) (vals : List Val) (idx key : ℕ) (val : Val) :
    Option (PSWorker Val × List Val) :=
  match w with
  | .mapNone w => some (.mapNone w, vals.modify idx (· + val))
  | .chunkNone w => do
      let params ← incKey t w.model.params (key, val)
      some (.chunkNone { w with model := { w.model with params } }, vals)
  | .mapChunk w => some (.mapChunk { w with cachedKv := w.cachedKv.incr key val }, vals)
  | .chunkChunk w => do
      let params ← incKey t w.params (key, val)
      some (.chunkChunk { w with params }, vals)

/-- `Update_v2(idx, val)`. -/
def updateV2 (s : V2 Val) (p : ℕ × Val) : Option (V2 Val) := do
  let key ← s.keys[p.1]?
  let (worker, vals) ← inc t s.worker s.vals p.1 key p.2
  some { s with worker, vals, delta := s.delta.modify p.1 (· + p.2) }

/-- `Clock_v2`. -/
def clockV2 (s : V2 Val) : Option (PSWorker Val × List (ℕ × Val)) := s.worker.push t s.keys s.delta

end V2

/-- A call of one of the two versions of `Update_v2`. -/
inductive UpdateCall (Val : Type) where
  | one (idx : ℕ) (val : Val)
  | vector (vals : List Val)

/-- The single updates of a call. -/
def UpdateCall.pairs : UpdateCall Val → List (ℕ × Val)
  | one idx val => [(idx, val)]
  | vector vals => vals.zipIdx.map fun p => (p.2, p.1)

/-- `PSMapNoneWorker`, the only worker that does not write updates through. -/
def PSWorker.isMapNone : PSWorker Val → Bool
  | mapNone _ => true
  | _ => false

/-- `Update_v2`; `PSMapNoneWorker` asserts the length of a vector. -/
def V2.update (s : V2 Val) (u : UpdateCall Val) : Option (V2 Val) :=
  match u with
  | .one idx val => s.updateV2 t (idx, val)
  | .vector vals =>
      if s.worker.isMapNone ∧ vals.length ≠ s.vals.length then none
      else (UpdateCall.vector vals).pairs.foldlM (V2.updateV2 t) s

/-- One round in the first interface. -/
def roundV1 (r : Replies Val) (w : PSWorker Val) (keys : List ℕ) (vals : List Val) :
    Option (PSWorker Val × List (ℕ × Val)) := do
  let (w, _) ← w.pull t staleness r keys
  w.push t keys vals

/-- One round in the second interface. -/
def roundV2 (r : Replies Val) (w : PSWorker Val) (keys : List ℕ) (calls : List (UpdateCall Val)) :
    Option (PSWorker Val × List (ℕ × Val)) := do
  let s ← w.prepareV2 t staleness r keys
  let s ← calls.foldlM (V2.update t) s
  s.clockV2 t

/-- The indices of a call are in range; a vector for a `PSMapNoneWorker` has all of them. -/
def UpdateCall.Fits (isMapNone : Bool) (n : ℕ) : UpdateCall Val → Prop
  | one idx _ => idx < n
  | vector vals => if isMapNone then vals.length = n else vals.length ≤ n

/-! ## Deltas -/

/-- The sum of the updates of every index. -/
def deltas (n : ℕ) (updates : List (ℕ × Val)) : List Val := (List.range n).map (written updates)

/-- Collecting the updates in `delta_`. -/
theorem foldl_modify (updates : List (ℕ × Val)) (delta : List Val) (j : ℕ) :
    (updates.foldl (fun delta p => delta.modify p.1 (· + p.2)) delta)[j]? =
      delta[j]?.map (· + written updates j) := by
  induction updates generalizing delta with
  | nil => simp
  | cons p updates ih =>
      rw [List.foldl_cons, ih, List.getElem?_modify, written_cons]
      by_cases hj : p.1 = j
      · simp [hj]
      · simp [hj]

theorem foldl_modify_zeros (updates : List (ℕ × Val)) (n : ℕ) :
    updates.foldl (fun delta p => delta.modify p.1 (· + p.2)) (List.replicate n 0) =
      deltas n updates := by
  apply List.ext_getElem?
  intro j
  rw [foldl_modify, deltas, List.getElem?_map]
  by_cases hj : j < n
  · simp [hj]
  · simp [hj]

/-- The updates by key instead of by index. -/
def keyed (keys : List ℕ) (updates : List (ℕ × Val)) : List (ℕ × Val) :=
  updates.filterMap fun p => keys[p.1]?.map fun key => (key, p.2)

theorem written_zip_add (keys : List ℕ) (f g : ℕ → Val) (m k : ℕ) :
    written (keys.zip ((List.range' m keys.length).map fun i => f i + g i)) k =
      written (keys.zip ((List.range' m keys.length).map f)) k +
        written (keys.zip ((List.range' m keys.length).map g)) k := by
  induction keys generalizing m with
  | nil => simp
  | cons key keys ih =>
      simp only [List.length_cons, List.range'_succ, List.map_cons, List.zip_cons_cons, written_cons,
        ih]
      split
      · rw [add_add_add_comm]
      · rw [zero_add, zero_add, zero_add]

theorem written_zip_single (keys : List ℕ) (idx : ℕ) (val : Val) (m k : ℕ) :
    written (keys.zip ((List.range' m keys.length).map fun i => if idx = i then val else 0)) k =
      if m ≤ idx ∧ keys[idx - m]? = some k then val else 0 := by
  induction keys generalizing m with
  | nil => simp
  | cons key keys ih =>
      simp only [List.length_cons, List.range'_succ, List.map_cons, List.zip_cons_cons, written_cons,
        ih]
      rcases Nat.lt_trichotomy idx m with hlt | rfl | hgt
      · rw [if_neg (show idx ≠ m by omega), ite_self, if_neg fun h => absurd h.1 (by omega),
          if_neg fun h => absurd h.1 (by omega), zero_add]
      · simp
      · obtain ⟨d, rfl⟩ : ∃ d, idx = m + 1 + d := ⟨idx - (m + 1), by omega⟩
        have hidx : m + 1 + d - m = d + 1 := by omega
        rw [if_neg (show m + 1 + d ≠ m by omega), ite_self, zero_add, hidx, List.getElem?_cons_succ,
          Nat.add_sub_cancel_left]
        refine if_congr (and_congr_left fun _ => ?_) rfl rfl
        omega

/-- **Every key gets the sum of the updates of its indices.** -/
theorem written_deltas (keys : List ℕ) (updates : List (ℕ × Val)) (k : ℕ) :
    written (keys.zip (deltas keys.length updates)) k = written (keyed keys updates) k := by
  rw [deltas, List.range_eq_range']
  induction updates with
  | nil =>
      have hzero := written_zip_single keys 0 (0 : Val) 0 k
      have hnil : written ([] : List (ℕ × Val)) = fun _ => 0 := rfl
      rw [hnil]
      simpa [keyed] using hzero
  | cons p updates ih =>
      have hadd := written_zip_add keys (fun i => if p.1 = i then p.2 else 0) (written updates) 0 k
      rw [written_zip_single, ih] at hadd
      have hsplit : written (p :: updates) = fun i => (if p.1 = i then p.2 else 0) + written updates i :=
        funext fun i => written_cons p updates i
      rw [hsplit, hadd]
      cases hkey : keys[p.1]? with
      | none => simp [keyed, hkey]
      | some key => simp [keyed, hkey, written_cons]

omit [AddCommMonoid Val] in
theorem keyed_cons {keys : List ℕ} {p : ℕ × Val} {key : ℕ} (hkey : keys[p.1]? = some key)
    (updates : List (ℕ × Val)) : keyed keys (p :: updates) = (key, p.2) :: keyed keys updates := by
  simp [keyed, hkey]

omit [AddCommMonoid Val] in
theorem mem_keys_of_keyed {keys : List ℕ} {updates : List (ℕ × Val)} {x : ℕ × Val}
    (hx : x ∈ keyed keys updates) : x.1 ∈ keys := by
  simp only [keyed, List.mem_filterMap, Option.map_eq_some_iff] at hx
  obtain ⟨p, -, key, hkey, rfl⟩ := hx
  exact List.mem_of_getElem? hkey

/-! ## Writing through -/

/-- Additions to the thread cache; `PSMapNoneWorker` makes none. -/
def PSWorker.writeThrough (w : PSWorker Val) (xs : List (ℕ × Val)) : Option (PSWorker Val) :=
  match w with
  | mapNone w => some (mapNone w)
  | chunkNone w => (incAll t w.model.params xs).map fun params =>
      chunkNone { w with model := { w.model with params } }
  | mapChunk w => some (mapChunk { w with cachedKv := w.cachedKv.incrAll xs })
  | chunkChunk w => (incAll t w.params xs).map fun params => chunkChunk { w with params }

theorem writeThrough_nil (w : PSWorker Val) : w.writeThrough t [] = some w := by
  cases w <;> rfl

theorem writeThrough_cons (w : PSWorker Val) (x : ℕ × Val) (xs : List (ℕ × Val)) :
    w.writeThrough t (x :: xs) = (w.writeThrough t [x]).bind fun w => w.writeThrough t xs := by
  cases w with
  | mapNone w => rfl
  | chunkNone w =>
      simp only [PSWorker.writeThrough, incAll, List.foldlM_cons, List.foldlM_nil]
      cases incKey t w.model.params x <;> rfl
  | mapChunk w => rfl
  | chunkChunk w =>
      simp only [PSWorker.writeThrough, incAll, List.foldlM_cons, List.foldlM_nil]
      cases incKey t w.params x <;> rfl

/-- One update writes one pair through. -/
theorem inc_eq (w : PSWorker Val) (vals : List Val) (idx key : ℕ) (val : Val) :
    V2.inc t w vals idx key val = (w.writeThrough t [(key, val)]).map fun w' =>
      (w', if w.isMapNone then vals.modify idx (· + val) else vals) := by
  cases w with
  | mapNone w => rfl
  | chunkNone w =>
      simp only [V2.inc, PSWorker.writeThrough, incAll, List.foldlM_cons, List.foldlM_nil]
      cases incKey t w.model.params (key, val) <;> rfl
  | mapChunk w => rfl
  | chunkChunk w =>
      simp only [V2.inc, PSWorker.writeThrough, incAll, List.foldlM_cons, List.foldlM_nil]
      cases incKey t w.params (key, val) <;> rfl

theorem isMapNone_writeThrough {w w' : PSWorker Val} {xs : List (ℕ × Val)}
    (h : w.writeThrough t xs = some w') : w'.isMapNone = w.isMapNone := by
  cases w with
  | mapNone w =>
      obtain rfl := Option.some.inj h
      rfl
  | chunkNone w =>
      obtain ⟨params, -, rfl⟩ := Option.map_eq_some_iff.mp h
      rfl
  | mapChunk w =>
      obtain rfl := Option.some.inj h
      rfl
  | chunkChunk w =>
      obtain ⟨params, -, rfl⟩ := Option.map_eq_some_iff.mp h
      rfl

/-- **Single updates write through and collect deltas.** -/
theorem foldlM_updateV2 {keys : List ℕ} {updates : List (ℕ × Val)}
    (hidx : ∀ p ∈ updates, p.1 < keys.length) (w : PSWorker Val) (vals delta : List Val) :
    updates.foldlM (V2.updateV2 t) ⟨w, keys, vals, delta⟩ =
      (w.writeThrough t (keyed keys updates)).map fun w' => ⟨w', keys,
        if w.isMapNone then updates.foldl (fun vals p => vals.modify p.1 (· + p.2)) vals else vals,
        updates.foldl (fun delta p => delta.modify p.1 (· + p.2)) delta⟩ := by
  induction updates generalizing w vals delta with
  | nil =>
      rw [keyed, List.filterMap_nil, writeThrough_nil]
      simp
  | cons p updates ih =>
      obtain ⟨key, hkey⟩ : ∃ key, keys[p.1]? = some key :=
        ⟨_, List.getElem?_eq_getElem (hidx p (by simp))⟩
      rw [List.foldlM_cons, keyed_cons hkey, writeThrough_cons]
      simp only [V2.updateV2, hkey, inc_eq, Option.bind_eq_bind, Option.bind_some]
      cases hw : w.writeThrough t [(key, p.2)] with
      | none => rfl
      | some w' =>
          simp only [Option.map_some, Option.bind_some,
            ih (fun q hq => hidx q (by simp [hq])), isMapNone_writeThrough t hw, List.foldl_cons]
          cases w.isMapNone <;> rfl

omit [AddCommMonoid Val] in
theorem fits_pairs {isMapNone : Bool} {n : ℕ} {u : UpdateCall Val} (h : u.Fits isMapNone n) :
    ∀ p ∈ u.pairs, p.1 < n := by
  cases u with
  | one idx val =>
      intro p hp
      rw [List.mem_singleton.mp hp]
      exact h
  | vector vals =>
      have hle : vals.length ≤ n := by
        simp only [UpdateCall.Fits] at h
        split at h
        · exact h.le
        · exact h
      intro p hp
      simp only [UpdateCall.pairs, List.mem_map] at hp
      obtain ⟨q, hq, rfl⟩ := hp
      have hlt := List.snd_lt_of_mem_zipIdx hq
      simp only at hlt ⊢
      omega

theorem length_foldl_modify (updates : List (ℕ × Val)) (vals : List Val) :
    (updates.foldl (fun vals p => vals.modify p.1 (· + p.2)) vals).length = vals.length := by
  induction updates generalizing vals with
  | nil => rfl
  | cons p updates ih => rw [List.foldl_cons, ih, List.length_modify]

/-- One call of either version of `Update_v2` is its single updates. -/
theorem update_eq_foldlM {s : V2 Val} {u : UpdateCall Val}
    (hfits : u.Fits s.worker.isMapNone s.keys.length)
    (hvals : s.worker.isMapNone → s.vals.length = s.keys.length) :
    s.update t u = u.pairs.foldlM (V2.updateV2 t) s := by
  cases u with
  | one idx val =>
      simp [V2.update, UpdateCall.pairs]
  | vector vals =>
      rw [V2.update, if_neg]
      intro ⟨hmap, hne⟩
      simp only [UpdateCall.Fits, hmap, if_true] at hfits
      exact hne (hfits.trans (hvals hmap).symm)

/-- Calls of either version of `Update_v2` are their single updates. -/
theorem foldlM_update {keys : List ℕ} {calls : List (UpdateCall Val)} (w : PSWorker Val)
    (hfits : ∀ u ∈ calls, u.Fits w.isMapNone keys.length) (vals delta : List Val)
    (hvals : w.isMapNone → vals.length = keys.length) :
    calls.foldlM (V2.update t) ⟨w, keys, vals, delta⟩ =
      (calls.flatMap UpdateCall.pairs).foldlM (V2.updateV2 t) ⟨w, keys, vals, delta⟩ := by
  induction calls generalizing w vals delta with
  | nil => rfl
  | cons u calls ih =>
      have hu := hfits u (by simp)
      rw [List.foldlM_cons, List.flatMap_cons, List.foldlM_append, update_eq_foldlM t hu hvals,
        foldlM_updateV2 t (fits_pairs hu)]
      cases hw : w.writeThrough t (keyed keys u.pairs) with
      | none => rfl
      | some w' =>
          have hkind := isMapNone_writeThrough t hw
          simp only [Option.map_some, Option.bind_eq_bind, Option.bind_some]
          refine ih w' (fun v hv => ?_) _ _ fun hmap => ?_
          · rw [hkind]
            exact hfits v (by simp [hv])
          · rw [hkind] at hmap
            rw [if_pos hmap, length_foldl_modify, hvals hmap]

/-! ## Rounds -/

/-- A pull and `Prepare_v2` leave the same worker. -/
theorem prepareV2_of_pull {r : Replies Val} {w w₀ : PSWorker Val} {keys : List ℕ} {vals : List Val}
    (h : w.pull t staleness r keys = some (w₀, vals)) :
    w₀.isMapNone = w.isMapNone ∧ ∃ vals', (w₀.isMapNone → vals'.length = keys.length) ∧
      w.prepareV2 t staleness r keys =
        some ⟨w₀, keys, vals', List.replicate keys.length 0⟩ := by
  cases w with
  | mapNone w =>
      obtain ⟨⟨w₁, vals₁⟩, hpull, heq⟩ := Option.map_eq_some_iff.mp h
      obtain ⟨rfl, rfl⟩ := Prod.mk.inj heq
      refine ⟨rfl, vals₁, fun _ => ?_, by simp [PSWorker.prepareV2, hpull]⟩
      unfold PSMapNoneWorker.pull at hpull
      split at hpull
      · cases hpull
      · rw [← (Prod.mk.inj (Option.some.inj hpull)).2, List.length_map]
  | chunkNone w =>
      obtain ⟨⟨w₁, vals₁⟩, hpull, heq⟩ := Option.map_eq_some_iff.mp h
      obtain ⟨rfl, rfl⟩ := Prod.mk.inj heq
      refine ⟨rfl, [], by simp [PSWorker.isMapNone], ?_⟩
      unfold PSChunkNoneWorker.pull at hpull
      split at hpull
      · cases hpull
      · simp only [Option.bind_eq_bind, Option.bind_eq_some_iff, Option.some.injEq,
          Prod.mk.injEq] at hpull
        obtain ⟨ids, hids, vals, -, rfl, -⟩ := hpull
        simp [PSWorker.prepareV2, hids]
  | mapChunk w =>
      obtain ⟨⟨w₁, vals₁⟩, hpull, heq⟩ := Option.map_eq_some_iff.mp h
      obtain ⟨rfl, rfl⟩ := Prod.mk.inj heq
      refine ⟨rfl, [], by simp [PSWorker.isMapNone], ?_⟩
      unfold PSMapChunkWorker.pull at hpull
      split at hpull
      · cases hpull
      · obtain ⟨rfl, -⟩ := Prod.mk.inj (Option.some.inj hpull)
        rfl
  | chunkChunk w =>
      obtain ⟨⟨w₁, vals₁⟩, hpull, heq⟩ := Option.map_eq_some_iff.mp h
      obtain ⟨rfl, rfl⟩ := Prod.mk.inj heq
      refine ⟨rfl, [], by simp [PSWorker.isMapNone], ?_⟩
      unfold PSChunkChunkWorker.pull at hpull
      split at hpull
      · cases hpull
      · simp only [Option.bind_eq_bind, Option.bind_eq_some_iff, Option.some.injEq,
          Prod.mk.injEq] at hpull
        obtain ⟨ids, hids, vals, -, rfl, -⟩ := hpull
        simp [PSWorker.prepareV2, hids]

end Interfaces

section Cancel

variable [AddCancelCommMonoid Val] {t : RangeTable}

/-- A push to the cached chunks, before and after the same additions were written through. -/
theorem incAll_twice (hsize : 0 < t.chunkSize) {params params₁ : ℕ → List Val} {keys : List ℕ}
    {updates : List (ℕ × Val)}
    (h : incAll t params (keys.zip (deltas keys.length updates)) = some params₁) :
    ∃ params' params₂, incAll t params (keyed keys updates) = some params' ∧
      incAll t params' (keys.zip (deltas keys.length updates)) = some params₂ ∧
      (params₂ = params₁ ↔ ∀ k, written (keys.zip (deltas keys.length updates)) k = 0) := by
  obtain ⟨hplaces, hadded⟩ := incAll_added hsize h
  have hkeys : (keys.zip (deltas keys.length updates)).map Prod.fst = keys :=
    List.map_fst_zip (by simp [deltas])
  have hplace : ∀ k ∈ keys, HasPlace t params k := by
    intro k hk
    rw [← hkeys, List.mem_map] at hk
    obtain ⟨p, hp, rfl⟩ := hk
    exact hplaces p hp
  have hthrough' : ∀ p ∈ keyed keys updates, HasPlace t params p.1 := fun p hp =>
    hplace p.1 (mem_keys_of_keyed hp)
  obtain ⟨params', hthrough⟩ := incAll_isSome hsize hthrough'
  obtain ⟨-, hadded'⟩ := incAll_added hsize hthrough
  have hplaces' : ∀ p ∈ keys.zip (deltas keys.length updates), HasPlace t params' p.1 := fun p hp =>
    hadded'.hasPlace.mpr (hplaces p hp)
  obtain ⟨params₂, hpush⟩ := incAll_isSome hsize hplaces'
  obtain ⟨-, hadded₂⟩ := incAll_added hsize hpush
  exact ⟨params', params₂, hthrough, hpush, hadded.twice_iff hsize hplaces
    (fun k => (written_deltas keys updates k).symm) (hadded'.trans hadded₂)⟩

/-- The same for a map. -/
theorem incrAll_twice (m : ZeroMap ℕ Val) (keys : List ℕ) (updates : List (ℕ × Val)) :
    (m.incrAll (keyed keys updates)).incrAll (keys.zip (deltas keys.length updates)) =
        m.incrAll (keys.zip (deltas keys.length updates)) ↔
      ∀ k, written (keys.zip (deltas keys.length updates)) k = 0 := by
  have hkeys : (keys.zip (deltas keys.length updates)).map Prod.fst = keys :=
    List.map_fst_zip (by simp [deltas])
  have hget : ∀ k, ((m.incrAll (keyed keys updates)).incrAll
      (keys.zip (deltas keys.length updates))).get k =
      (m.incrAll (keys.zip (deltas keys.length updates))).get k +
        written (keys.zip (deltas keys.length updates)) k := by
    intro k
    rw [ZeroMap.get_incrAll, ZeroMap.get_incrAll, ZeroMap.get_incrAll, ← written, ← written,
      written_deltas]
  constructor
  · intro heq k
    have h := hget k
    rw [heq] at h
    exact left_eq_add.mp h
  · intro hzero
    ext k
    · rw [ZeroMap.mem_incrAll, ZeroMap.mem_incrAll, ZeroMap.mem_incrAll, hkeys]
      constructor
      · rintro (hk | hk | hk)
        · exact Or.inl hk
        · obtain ⟨p, hp, rfl⟩ := List.mem_map.mp hk
          exact Or.inl (mem_keys_of_keyed hp)
        · exact Or.inr hk
      · exact fun hk => hk.imp_right Or.inr
    · rw [hget, hzero, add_zero]

/-- A push of the deltas, before and after the updates were written through. -/
theorem push_writeThrough (hsize : 0 < t.chunkSize) {w w₁ : PSWorker Val} {keys : List ℕ}
    {updates sent : List (ℕ × Val)}
    (h : w.push t keys (deltas keys.length updates) = some (w₁, sent)) :
    ∃ w' w₂, w.writeThrough t (keyed keys updates) = some w' ∧
      w'.push t keys (deltas keys.length updates) = some (w₂, sent) ∧
      (w₂ = w₁ ↔ w.isMapNone ∨ ∀ k, written (keys.zip (deltas keys.length updates)) k = 0) := by
  have hpairs : pairUp keys (deltas keys.length updates) =
      some (keys.zip (deltas keys.length updates)) := if_pos (by simp [deltas])
  cases w with
  | mapNone w => exact ⟨_, w₁, rfl, h, by simp [PSWorker.isMapNone]⟩
  | chunkNone w =>
      obtain ⟨⟨v, sent'⟩, hpush, heq⟩ := Option.map_eq_some_iff.mp h
      obtain ⟨rfl, rfl⟩ := Prod.mk.inj heq
      simp only [PSChunkNoneWorker.push, hpairs, ChunkBasedModelWithClocks.push] at hpush
      split at hpush
      · cases hpush
      · next hcount =>
          simp only [Option.bind_eq_bind, Option.bind_some, Option.bind_eq_some_iff] at hpush
          obtain ⟨model, hmodel, heq⟩ := hpush
          split at hmodel
          · next hcached =>
              rw [Option.bind_eq_some_iff] at hmodel
              obtain ⟨params₁, hinc, hmodel⟩ := hmodel
              obtain ⟨rfl, rfl⟩ := Prod.mk.inj (Option.some.inj heq)
              obtain rfl := Option.some.inj hmodel
              obtain ⟨params', params₂, hthrough, hinc', hiff⟩ := incAll_twice hsize hinc
              refine ⟨.chunkNone { w with model := { w.model with params := params' } },
                .chunkNone { w with
                  model := { w.model with params := params₂, clock := w.model.clock + 1 }
                  pushCount := w.pushCount + 1 }, by simp [PSWorker.writeThrough, hthrough], ?_, ?_⟩
              · simp only [PSWorker.push, PSChunkNoneWorker.push, hpairs,
                  ChunkBasedModelWithClocks.push, if_neg hcount, if_pos hcached, hinc',
                  Option.bind_eq_bind, Option.bind_some, Option.map_some]
              · simp [PSWorker.isMapNone, ← hiff]
          · cases hmodel
  | mapChunk w =>
      obtain ⟨⟨v, sent'⟩, hpush, heq⟩ := Option.map_eq_some_iff.mp h
      obtain ⟨rfl, rfl⟩ := Prod.mk.inj heq
      simp only [PSMapWorker.push, hpairs] at hpush
      split at hpush
      · cases hpush
      · next hcount =>
          obtain ⟨rfl, rfl⟩ := Prod.mk.inj (Option.some.inj hpush)
          refine ⟨.mapChunk { w with cachedKv := w.cachedKv.incrAll (keyed keys updates) },
            .mapChunk { w with
              pushCount := w.pushCount + 1
              cachedKv := (w.cachedKv.incrAll (keyed keys updates)).incrAll
                (keys.zip (deltas keys.length updates)) }, rfl, ?_, ?_⟩
          · simp only [PSWorker.push, PSMapWorker.push, hpairs, if_neg hcount, Option.bind_eq_bind,
              Option.bind_some, Option.map_some]
          · simp [PSWorker.isMapNone, incrAll_twice]
  | chunkChunk w =>
      obtain ⟨⟨v, sent'⟩, hpush, heq⟩ := Option.map_eq_some_iff.mp h
      obtain ⟨rfl, rfl⟩ := Prod.mk.inj heq
      simp only [PSChunkChunkWorker.push, hpairs] at hpush
      split at hpush
      · cases hpush
      · next hcount =>
          simp only [Option.bind_eq_bind, Option.bind_some, Option.bind_eq_some_iff] at hpush
          obtain ⟨params₁, hinc, heq⟩ := hpush
          obtain ⟨rfl, rfl⟩ := Prod.mk.inj (Option.some.inj heq)
          obtain ⟨params', params₂, hthrough, hinc', hiff⟩ := incAll_twice hsize hinc
          refine ⟨.chunkChunk { w with params := params' },
            .chunkChunk { w with params := params₂, pushCount := w.pushCount + 1 },
            by simp [PSWorker.writeThrough, hthrough], ?_, ?_⟩
          · simp only [PSWorker.push, PSChunkChunkWorker.push, hpairs, if_neg hcount, hinc',
              Option.bind_eq_bind, Option.bind_some, Option.map_some]
          · simp [PSWorker.isMapNone, ← hiff]

/-- **When the second interface equals the first.**  From any state of any of the four workers and
against the same replies, a round in the second interface sends what a round in the first one
sends for the sums of the updates, and leaves the same worker with the same cache if and only if
the worker is a `PSMapNoneWorker` or the updates of every key sum up to zero. -/
theorem v2_equals_v1 (hsize : 0 < t.chunkSize) (staleness : ℕ) (r : Replies Val) (w : PSWorker Val)
    (keys : List ℕ) (calls : List (UpdateCall Val))
    (hfits : ∀ u ∈ calls, u.Fits w.isMapNone keys.length) {w₁ : PSWorker Val}
    {sent : List (ℕ × Val)} (h : roundV1 t staleness r w keys
      (deltas keys.length (calls.flatMap UpdateCall.pairs)) = some (w₁, sent)) :
    ∃ w₂, roundV2 t staleness r w keys calls = some (w₂, sent) ∧
      (w₂ = w₁ ↔ w.isMapNone ∨ ∀ k,
        written (keys.zip (deltas keys.length (calls.flatMap UpdateCall.pairs))) k = 0) := by
  simp only [roundV1, Option.bind_eq_bind, Option.bind_eq_some_iff] at h
  obtain ⟨⟨w₀, vals⟩, hpull, hpush⟩ := h
  obtain ⟨hkind, vals', hvals, hprepare⟩ := prepareV2_of_pull t staleness hpull
  obtain ⟨w', w₂, hthrough, hpush', hiff⟩ := push_writeThrough hsize hpush
  have hidx : ∀ p ∈ calls.flatMap UpdateCall.pairs, p.1 < keys.length := by
    intro p hp
    obtain ⟨u, hu, hp⟩ := List.mem_flatMap.mp hp
    exact fits_pairs (hfits u hu) p hp
  refine ⟨w₂, ?_, by rw [hiff, hkind]⟩
  simp only [roundV2, hprepare, Option.bind_eq_bind, Option.bind_some,
    foldlM_update t w₀ (by rwa [hkind]) _ _ hvals, foldlM_updateV2 t hidx, hthrough,
    Option.map_some, V2.clockV2, foldl_modify_zeros, hpush']

end Cancel

/-- The value of a key in the thread cache. -/
def PSWorker.cached (t : RangeTable) (w : PSWorker ℤ) (k : ℕ) : Option ℤ :=
  match w with
  | mapNone w => if k ∈ w.cachedKv.dom then some (w.cachedKv.get k) else none
  | chunkNone w => (w.model.params (k / t.chunkSize))[k % t.chunkSize]?
  | mapChunk w => if k ∈ w.cachedKv.dom then some (w.cachedKv.get k) else none
  | chunkChunk w => (w.params (k / t.chunkSize))[k % t.chunkSize]?

/-- Every key is answered with ten. -/
def tenReplies : Replies ℤ := ⟨fun _ => 10, fun _ => [10, 10], 0, fun _ => 0⟩

/-- An update of five: three of the four workers hold it twice afterwards. -/
theorem v2_equals_v1_fails :
    (¬ ∀ w : PSWorker ℤ, roundV2 (setMaxKeyAndChunkSize 1 7 2) 1 tenReplies w [0] [.one 0 5] =
      roundV1 (setMaxKeyAndChunkSize 1 7 2) 1 tenReplies w [0] [5]) ∧
    ∀ w ∈ [PSWorker.chunkNone .new, .mapChunk (.new 0), .chunkChunk .new],
      (roundV1 (setMaxKeyAndChunkSize 1 7 2) 1 tenReplies w [0] [5]).map
          (fun p => p.1.cached (setMaxKeyAndChunkSize 1 7 2) 0) = some (some 15) ∧
        (roundV2 (setMaxKeyAndChunkSize 1 7 2) 1 tenReplies w [0] [.one 0 5]).map
          (fun p => p.1.cached (setMaxKeyAndChunkSize 1 7 2) 0) = some (some 20) := by
  refine ⟨fun h => ?_, ?_⟩
  · have hcached := congrArg
      (Option.map fun p => p.1.cached (setMaxKeyAndChunkSize 1 7 2) 0) (h (.chunkNone .new))
    exact absurd hcached (by decide)
  · simp only [List.forall_mem_cons, List.not_mem_nil, false_implies, implies_true, and_true]
    decide

/-- Updates that cancel out leave the same cache. -/
theorem v2_equals_v1_cancelling : ∃ w₁ w₂ sent,
    roundV1 (setMaxKeyAndChunkSize 1 7 2) 1 tenReplies (.chunkNone .new) [0] [0] = some (w₁, sent) ∧
      roundV2 (setMaxKeyAndChunkSize 1 7 2) 1 tenReplies (.chunkNone .new) [0] [.one 0 5, .vector [-5]] =
        some (w₂, sent) ∧ w₂ = w₁ := by
  have hround : ((roundV1 (setMaxKeyAndChunkSize 1 7 2) 1 tenReplies (.chunkNone .new) [0]
      (deltas 1 [(0, 5), (0, -5)])).map Prod.snd) = some [(0, 0)] := by decide
  obtain ⟨⟨w₁, sent⟩, h, rfl⟩ := Option.map_eq_some_iff.mp hround
  obtain ⟨w₂, hround₂, hiff⟩ := v2_equals_v1 (by decide) 1 tenReplies (.chunkNone .new) [0]
    [.one 0 5, .vector [-5]] (by simp [UpdateCall.Fits, PSWorker.isMapNone]) h
  refine ⟨w₁, w₂, _, h, hround₂, hiff.mpr (Or.inr fun k => ?_)⟩
  have hdeltas : deltas 1 [(0, (5 : ℤ)), (0, -5)] = [0] := by decide
  simp [UpdateCall.pairs, hdeltas, written_cons]

end FlexPS.ML
