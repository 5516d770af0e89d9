import Mathlib.Data.List.Dedup
import Mathlib.Data.List.Sort
import FlexPS.Datastore.DataStore
import FlexPS.Lib.Lockstep
import FlexPS.Lib.Machine
import FlexPS.Lib.Turns

/-!
# Sampling

A sampler hands out the elements of the data store one after the other, chunk by chunk, and begins
again with the first one after the last one.  It may be sent to a random place.  A batch is filled
by one sampler.  The indices are `int`s in the source; none grows beyond the size of a chunk, and
chunks are taken to have fewer than `2 ^ 31` elements.

## Main definitions

* `DataSampler`, `DataSampler.randomStartPoint`, `DataSampler.next` — the place of a sampler and its
  moves.
* `BatchDataSampler`, `BatchDataSampler.prepareNextBatch` — a sampler with a batch.
* `DataSampler.Ahead` — the elements in the order in which they come.
* `DataSampler.next_cycles` — they take turns.
-/

namespace FlexPS.Datastore

open Lib DataStore

/-- `DataSampler`; `local_id_` is before the next element. -/
structure DataSampler (T : Type) where
  isEmpty : Bool
  chunkId : ℕ
  localId : ℤ
  datastore : DataStore T

/-- The calls of a sampler; `rand()` returns the draws. -/
inductive SampleCall where
  | next
  | randomStartPoint (draw draw' : ℕ)
  deriving DecidableEq

namespace DataSampler

variable {T : Type}

/-- The constructor. -/
def new (datastore : DataStore T) : DataSampler T := ⟨datastore.empty, 0, -1, datastore⟩

/-- `random_start_point`; `none` when it does not find a chunk. -/
def randomStartPoint (draw draw' : ℕ) (s : DataSampler T) : Option (DataSampler T) :=
  if s.isEmpty then some s
  else do
    let n := s.datastore.length
    let chunkId ← s.datastore.findChunk n (draw % n)
    let chunk ← s.datastore[chunkId]?
    some { s with chunkId, localId := (draw' % chunk.length : ℕ) - 1 }

/-- `next`, with the place of the element; `none` for an access out of range, and when it looks for
a chunk where there is none.  A negative `int` is larger than every size. -/
def next (s : DataSampler T) : Option (Element T × DataSampler T) :=
  if s.isEmpty then none
  else do
    let n := s.datastore.length
    let localId := s.localId + 1
    let chunk ← s.datastore[s.chunkId]?
    if 0 ≤ localId ∧ localId < chunk.length then do
      let x ← chunk[localId.toNat]?
      some (((s.chunkId, localId.toNat), x), { s with localId })
    else do
      let chunkId ← s.datastore.findChunk n ((s.chunkId + 1) % n)
      let chunk ← s.datastore[chunkId]?
      let x ← chunk[0]?
      some (((chunkId, 0), x), { s with chunkId, localId := 0 })

/-- A call, with the element that it returns. -/
def step (s : DataSampler T) : SampleCall → Option (DataSampler T × List (Element T))
  | .next => s.next.map fun r => (r.2, [r.1])
  | .randomStartPoint draw draw' => (s.randomStartPoint draw draw').map fun s => (s, [])

end DataSampler

/-! ## Batches -/

/-- `BatchDataSampler`; a pointer that has been set denotes an element. -/
structure BatchDataSampler (T : Type) where
  dataSampler : DataSampler T
  batchSize : ℕ
  batchData : List (Option (Element T))

/-- The calls of a batch sampler. -/
inductive BatchCall where
  | randomStartPoint (draw draw' : ℕ)
  | prepareNextBatch
  | prepareNextBatchData
  deriving DecidableEq

/-- The call prepares a batch. -/
def BatchCall.Prepares : BatchCall → Prop
  | randomStartPoint _ _ => False
  | prepareNextBatch | prepareNextBatchData => True

namespace BatchDataSampler

variable {T : Type}

/-- The constructor. -/
def new (datastore : DataStore T) (batchSize : ℕ) : BatchDataSampler T :=
  ⟨.new datastore, batchSize, List.replicate batchSize none⟩

/-- One round of the loop that fills the batch. -/
def fillAt (s : BatchDataSampler T) (i : ℕ) : Option (BatchDataSampler T) := do
  let (data, dataSampler) ← s.dataSampler.next
  some { s with dataSampler, batchData := s.batchData.set i (some data) }

/-- The loop that fills the batch. -/
def fill (s : BatchDataSampler T) : Option (BatchDataSampler T) :=
  (List.range s.batchSize).foldlM fillAt s

/-- `index_set`, in the order of its iteration. -/
def indexSet (keys : List ℕ) : List ℕ := keys.dedup.insertionSort (· ≤ ·)

/-- `prepare_next_batch`, with the keys of the batch; `x` are the features of a datum. -/
def prepareNextBatch (x : T → List ℕ) (s : BatchDataSampler T) :
    Option (List ℕ × BatchDataSampler T) :=
  if s.dataSampler.isEmpty then some ([], s)
  else do
    let s ← s.fill
    let data ← s.batchData.mapM id
    some (indexSet (data.flatMap fun e => x e.2), s)

/-- `prepare_next_batch_data`. -/
def prepareNextBatchData (s : BatchDataSampler T) : Option (BatchDataSampler T) :=
  if s.dataSampler.isEmpty then some s else s.fill

/-- `get_data_ptrs`. -/
def getDataPtrs (s : BatchDataSampler T) : List (Option (Element T)) :=
  if s.dataSampler.isEmpty then [] else s.batchData

/-- A call, with the batch that it prepares. -/
def step (x : T → List ℕ) (s : BatchDataSampler T) :
    BatchCall → Option (BatchDataSampler T × List (List (Option (Element T))))
  | .randomStartPoint draw draw' =>
      (s.dataSampler.randomStartPoint draw draw').map fun dataSampler => ({ s with dataSampler }, [])
  | .prepareNextBatch => (s.prepareNextBatch x).map fun r => (r.2, [r.2.getDataPtrs])
  | .prepareNextBatchData => s.prepareNextBatchData.map fun s => (s, [s.getDataPtrs])

end BatchDataSampler

/-! ## What comes next -/

namespace DataSampler

variable {T : Type} {d : DataStore T} {s s' : DataSampler T} {R : List (Element T)} {c i : ℕ}

/-- What is left from a place on, up to the end of the data store. -/
def leftAt (d : DataStore T) (c i : ℕ) : List (Element T) :=
  (chunkElements (d.getD c []) c).drop i ++ elementsFrom d (c + 1)

theorem leftAt_cons {chunk : List T} (hc : d[c]? = some chunk) (hi : i < chunk.length) :
    leftAt d c i = ((c, i), chunk[i]) :: leftAt d c (i + 1) := by
  have hchunk : d.getD c [] = chunk := by rw [List.getD_eq_getElem?_getD, hc, Option.getD_some]
  rw [leftAt, leftAt, hchunk, chunkElements_drop hi, List.cons_append]

/-- At the end of a chunk the later chunks are left. -/
theorem leftAt_of_le {chunk : List T} (hc : d[c]? = some chunk) (hi : chunk.length ≤ i) :
    leftAt d c i = elementsFrom d (c + 1) := by
  have hchunk : d.getD c [] = chunk := by rw [List.getD_eq_getElem?_getD, hc, Option.getD_some]
  rw [leftAt, hchunk, chunkElements_drop_of_le hi, List.nil_append]

/-- At the begin of a chunk it is left, and the later ones. -/
theorem leftAt_zero (hc : c < d.length) : leftAt d c 0 = elementsFrom d c := by
  have hchunk : d.getD c [] = d[c] := by
    rw [List.getD_eq_getElem?_getD, List.getElem?_eq_getElem hc, Option.getD_some]
  rw [leftAt, List.drop_zero, elementsFrom_cons hc, hchunk]

/-- What is left comes last among all elements. -/
theorem elements_eq_append_leftAt (hc : c < d.length) (i : ℕ) :
    ∃ before, d.elements = before ++ leftAt d c i := by
  obtain ⟨before, heq⟩ := elements_eq_append (d := d) (Nat.le_of_lt hc)
  refine ⟨before ++ (chunkElements (d.getD c []) c).take i, ?_⟩
  rw [heq, ← leftAt_zero hc, leftAt, leftAt, List.append_assoc, ← List.append_assoc (List.take _ _),
    List.take_append_drop, List.drop_zero]

/-- The elements in the order in which they come: what is left of the data store, and then the
elements before it. -/
structure Ahead (d : DataStore T) (s : DataSampler T) (R : List (Element T)) : Prop where
  datastore : s.datastore = d
  isEmpty : s.isEmpty = false
  nonempty : d.empty = false
  chunk : s.chunkId < d.length
  index : 0 ≤ s.localId + 1
  order : ∃ before, d.elements = before ++ leftAt d s.chunkId (s.localId + 1).toNat ∧
    R = leftAt d s.chunkId (s.localId + 1).toNat ++ before

/-- All elements come, in the cyclic order of the data store. -/
theorem Ahead.isRotated (h : Ahead d s R) : R ~r d.elements := by
  obtain ⟨before, heq, rfl⟩ := h.order
  rw [heq]
  exact List.isRotated_append

/-- A sampler is ahead of all elements wherever it is. -/
theorem ahead_of_place (hne : d.empty = false) (hc : c < d.length) (i : ℕ) :
    ∃ R, Ahead d ⟨false, c, i - 1, d⟩ R := by
  obtain ⟨before, heq⟩ := elements_eq_append_leftAt hc i
  have hindex : ((i : ℤ) - 1 + 1).toNat = i := by omega
  refine ⟨leftAt d c i ++ before, rfl, rfl, hne, hc, ?_, before, ?_, ?_⟩
  · simp only
    omega
  · simp only [hindex, heq]
  · simp only [hindex]

theorem length_pos_of_nonempty (hne : d.empty = false) : 0 < d.length := by
  refine List.length_pos_iff.mpr fun hnil => ?_
  rw [hnil] at hne
  cases hne

/-- A fresh sampler is ahead of all elements. -/
theorem ahead_new (hne : d.empty = false) : ∃ R, Ahead d (new d) R := by
  obtain ⟨R, hR⟩ := ahead_of_place hne (length_pos_of_nonempty hne) 0
  refine ⟨R, ?_⟩
  rw [new, hne]
  exact hR

/-- **The search** stops at the next chunk that is not empty, and its first element is the next one
that is left, or the first of all when nothing is left. -/
theorem findChunk_spec (hne : d.empty = false) (hc : c < d.length) :
    ∃ c' chunk x, findChunk d d.length ((c + 1) % d.length) = some c' ∧ c' < d.length ∧
      d[c']? = some chunk ∧ chunk[0]? = some x ∧
      (elementsFrom d (c + 1) = ((c', 0), x) :: leftAt d c' 1 ∨
        elementsFrom d (c + 1) = [] ∧ d.elements = ((c', 0), x) :: leftAt d c' 1) := by
  have hpos := Nat.zero_lt_of_lt hc
  obtain ⟨k, chunk, hk, hchunk, hnot, hskip⟩ := exists_next hne (Nat.mod_lt (c + 1) hpos)
  have hfind := findChunk_eq (Nat.mod_lt (c + 1) hpos) hk hchunk hnot hskip
  simp only [Nat.mod_add_mod] at hchunk hskip hfind
  have hlen := List.length_pos_iff.mpr hnot
  have hlt : (c + 1 + k) % d.length < d.length := Nat.mod_lt _ hpos
  have hfirst : elementsFrom d ((c + 1 + k) % d.length) =
      (((c + 1 + k) % d.length, 0), chunk[0]) :: leftAt d ((c + 1 + k) % d.length) 1 := by
    rw [← leftAt_zero hlt, leftAt_cons hchunk hlen]
  refine ⟨_, chunk, chunk[0], hfind, hlt, hchunk, List.getElem?_eq_getElem hlen, ?_⟩
  rcases Nat.lt_or_ge (c + 1 + k) d.length with hin | hout
  · -- The chunk comes later in the data store.
    refine .inl ?_
    rw [← hfirst, Nat.mod_eq_of_lt hin]
    refine elementsFrom_skip fun j hj => ?_
    have hempty := hskip j hj
    rwa [Nat.mod_eq_of_lt (by omega)] at hempty
  · -- The later chunks are empty, and so are those before it.
    have hwrap : (c + 1 + k) % d.length = c + 1 + k - d.length := by
      rw [Nat.mod_eq_sub_mod hout, Nat.mod_eq_of_lt (by omega)]
    refine .inr ⟨?_, ?_⟩
    · have hlater : elementsFrom d (c + 1) = elementsFrom d (c + 1 + (d.length - (c + 1))) := by
        refine elementsFrom_skip fun j hj => ?_
        have hempty := hskip j (by omega)
        rwa [Nat.mod_eq_of_lt (by omega)] at hempty
      rw [hlater, elementsFrom_of_le (by omega)]
    · rw [← hfirst, hwrap, elements, ← Nat.zero_add (c + 1 + k - d.length)]
      refine elementsFrom_skip fun j hj => ?_
      have hempty := hskip (d.length - (c + 1) + j) (by omega)
      have hround : (c + 1 + (d.length - (c + 1) + j)) % d.length = 0 + j := by
        rw [Nat.mod_eq_sub_mod (by omega), Nat.mod_eq_of_lt (by omega)]
        omega
      rwa [hround] at hempty

/-- A move to a place behind the element that comes first. -/
theorem Ahead.advance (h : Ahead d s R) {e : Element T} (hc : c < d.length)
    (hfirst : leftAt d s.chunkId (s.localId + 1).toNat = e :: leftAt d c (i + 1) ∨
      leftAt d s.chunkId (s.localId + 1).toNat = [] ∧ d.elements = e :: leftAt d c (i + 1)) :
    ∃ R', R = e :: R' ∧ Ahead d { s with chunkId := c, localId := i } (R' ++ [e]) := by
  obtain ⟨before, heq, rfl⟩ := h.order
  have hindex : ((i : ℤ) + 1).toNat = i + 1 := by omega
  rcases hfirst with hleft | ⟨hleft, hall⟩
  · refine ⟨leftAt d c (i + 1) ++ before, by rw [hleft, List.cons_append], h.datastore, h.isEmpty,
      h.nonempty, hc, by simp only; omega, before ++ [e], ?_, ?_⟩
    · simp only [hindex, heq, hleft, List.append_assoc, List.singleton_append]
    · simp only [hindex, List.append_assoc]
  · rw [hleft, List.append_nil] at heq
    refine ⟨leftAt d c (i + 1), by rw [hleft, ← heq, hall, List.nil_append], h.datastore, h.isEmpty,
      h.nonempty, hc, by simp only; omega, [e], ?_, ?_⟩
    · simp only [hindex, hall, List.singleton_append]
    · simp only [hindex]

/-- **A call of `next`** returns the element that comes first, which then comes last. -/
theorem Ahead.next (h : Ahead d s R) :
    ∃ e s' R', R = e :: R' ∧ s.next = some (e, s') ∧ Ahead d s' (R' ++ [e]) := by
  obtain ⟨i, hi⟩ := Int.eq_ofNat_of_zero_le h.index
  obtain ⟨chunk, hchunk⟩ : ∃ chunk, d[s.chunkId]? = some chunk :=
    ⟨_, List.getElem?_eq_getElem h.chunk⟩
  have hplace : (s.localId + 1).toNat = i := by omega
  by_cases hin : i < chunk.length
  · obtain ⟨R', hR, hnext⟩ := h.advance (i := i) h.chunk
      (.inl (by rw [hplace, leftAt_cons hchunk hin]))
    refine ⟨((s.chunkId, i), chunk[i]), { s with localId := i }, R', hR, ?_, hnext⟩
    simp [DataSampler.next, h.isEmpty, h.datastore, hchunk, hi, hin]
  · obtain ⟨c, chunk', x, hfind, hc, hchunk', hx, hfirst⟩ := findChunk_spec h.nonempty h.chunk
    obtain ⟨R', hR, hnext⟩ := h.advance (i := 0) hc (by
      rwa [hplace, leftAt_of_le hchunk (Nat.le_of_not_lt hin)])
    refine ⟨((c, 0), x), { s with chunkId := c, localId := 0 }, R', hR, ?_, hnext⟩
    simp [DataSampler.next, h.isEmpty, h.datastore, hchunk, hi, hin, hfind, hchunk', hx]

/-- Wherever a sampler is sent, it is ahead of all elements. -/
theorem Ahead.randomStartPoint (h : Ahead d s R) (draw draw' : ℕ) :
    ∃ s' R', s.randomStartPoint draw draw' = some s' ∧ Ahead d s' R' := by
  have hpos := Nat.zero_lt_of_lt h.chunk
  have hdraw : draw % d.length < d.length := Nat.mod_lt _ hpos
  obtain ⟨k, chunk, hk, hchunk, hnot, hskip⟩ := exists_next h.nonempty hdraw
  have hfind := findChunk_eq hdraw hk hchunk hnot hskip
  have hlt : (draw % d.length + k) % d.length < d.length := Nat.mod_lt _ hpos
  generalize (draw % d.length + k) % d.length = c at hfind hchunk hlt
  obtain ⟨R', hR'⟩ := ahead_of_place h.nonempty hlt (draw' % chunk.length)
  refine ⟨_, R', ?_, hR'⟩
  simp [DataSampler.randomStartPoint, h.isEmpty, h.datastore, hfind, hchunk]

/-- Calls of `next` take turns. -/
theorem Ahead.run_next (h : Ahead d s R) (n : ℕ) :
    ∃ s', run step s (List.replicate n .next) = some (s', turns R n) ∧ Ahead d s' (R.rotate n) := by
  induction n generalizing s R with
  | zero => exact ⟨s, by simp, by rwa [List.rotate_zero]⟩
  | succ n ih =>
      obtain ⟨e, s₁, R', rfl, hnext, h₁⟩ := h.next
      obtain ⟨s', hrun, h'⟩ := ih h₁
      refine ⟨s', ?_, by rwa [List.rotate_cons_succ]⟩
      rw [List.replicate_succ, run_cons, step, hnext, Option.map_some, Option.bind_some, hrun,
        Option.bind_some, turns_cons, List.singleton_append]

/-- Every call returns. -/
theorem Ahead.step (h : Ahead d s R) (call : SampleCall) :
    ∃ s' out R', step s call = some (s', out) ∧ Ahead d s' R' ∧ ∀ e ∈ out, e ∈ d.elements := by
  cases call with
  | next =>
      obtain ⟨e, s', R', rfl, hnext, h'⟩ := h.next
      refine ⟨s', [e], _, by rw [DataSampler.step, hnext, Option.map_some], h', ?_⟩
      rintro _ (_ | ⟨_, ⟨⟩⟩)
      exact h.isRotated.mem_iff.mp (List.mem_cons_self ..)
  | randomStartPoint draw draw' =>
      obtain ⟨s', R', hsome, h'⟩ := h.randomStartPoint draw draw'
      exact ⟨s', [], R', by rw [DataSampler.step, hsome, Option.map_some], h', nofun⟩

/-- Every sequence of calls returns. -/
theorem Ahead.run_calls (h : Ahead d s R) (calls : List SampleCall) :
    ∃ s' out R', run DataSampler.step s calls = some (s', out) ∧ Ahead d s' R' ∧
      ∀ e ∈ out, e ∈ d.elements := by
  have hstart : (∃ R, Ahead d s R) ∧ ∀ e ∈ ([] : List (Element T)), e ∈ d.elements :=
    ⟨⟨R, h⟩, nofun⟩
  obtain ⟨s', out, hrun, ⟨R', h'⟩, hmem⟩ := run_total
    (I := fun out s => (∃ R, Ahead d s R) ∧ ∀ e ∈ out, e ∈ d.elements) (P := fun _ _ _ => True)
    (fun {out s call} ⟨⟨R, h⟩, hmem⟩ _ => by
      obtain ⟨s', o, R', hstep, h', hmem'⟩ := h.step call
      exact ⟨s', o, hstep, ⟨R', h'⟩, fun e he => (List.mem_append.mp he).elim (hmem e) (hmem' e)⟩)
    hstart (along_of_forall (fun _ _ => trivial) [] s : Along _ _ [] s calls)
  exact ⟨s', out, R', hrun, h', hmem⟩

end DataSampler

/-! ## Batch after batch -/

namespace BatchDataSampler

variable {T : Type} {d : DataStore T} {x : T → List ℕ} {s : BatchDataSampler T} {b : ℕ}
  {R : List (Element T)}

/-- The batch sampler is ahead of all elements, and its batch has the right size. -/
structure Ready (d : DataStore T) (b : ℕ) (s : BatchDataSampler T) (R : List (Element T)) :
    Prop where
  ahead : s.dataSampler.Ahead d R
  batchSize : s.batchSize = b
  length_eq : s.batchData.length = b

/-- **The loop** puts the elements that come next into the batch, one after the other. -/
theorem Ready.fillAt (h : Ready d b s R) (n : ℕ) (hn : n ≤ b) :
    ∃ s', (List.range n).foldlM BatchDataSampler.fillAt s = some s' ∧
      Ready d b s' (R.rotate n) ∧
      s'.batchData = (turns R n).map some ++ s.batchData.drop n := by
  induction n with
  | zero => exact ⟨s, rfl, by rwa [List.rotate_zero], by simp⟩
  | succ n ih =>
      obtain ⟨s₁, hfold, h₁, hdata⟩ := ih (Nat.le_of_succ_le hn)
      obtain ⟨e, sampler, R', hR, hnext, hsampler⟩ := h₁.ahead.next
      have hne : R ≠ [] := by
        rintro rfl
        rw [List.rotate_nil] at hR
        cases hR
      have hrotate : R.rotate (n + 1) = R' ++ [e] := by
        rw [← List.rotate_rotate, hR, List.rotate_cons_succ, List.rotate_zero]
      have hturns : turns R (n + 1) = turns R n ++ [e] := by
        rw [turns_add, hR, turns_cons, turns_zero]
      have hlt : n < s.batchData.length := by rwa [h.length_eq]
      refine ⟨{ s₁ with dataSampler := sampler, batchData := s₁.batchData.set n (some e) }, ?_,
        ⟨hrotate ▸ hsampler, h₁.batchSize, by rw [List.length_set, h₁.length_eq]⟩, ?_⟩
      · rw [List.range_succ, List.foldlM_append, hfold]
        simp [BatchDataSampler.fillAt, hnext]
      · have hlength : ((turns R n).map some).length = n := by
          rw [List.length_map, length_turns hne]
        rw [hdata, hturns, List.drop_eq_getElem_cons hlt, List.set_append_right _ _ hlength.le,
          hlength, Nat.sub_self, List.set_cons_zero, List.map_append, List.append_assoc,
          List.map_singleton, List.singleton_append]

/-- The batch is filled with the elements that come next. -/
theorem Ready.fill (h : Ready d b s R) :
    ∃ s', s.fill = some s' ∧ Ready d b s' (R.rotate b) ∧ s'.batchData = (turns R b).map some := by
  obtain ⟨s', hfold, h', hdata⟩ := h.fillAt b (Nat.le_refl b)
  refine ⟨s', by rw [BatchDataSampler.fill, h.batchSize, hfold], h', ?_⟩
  rw [hdata, List.drop_of_length_le h.length_eq.le, List.append_nil]

/-- **The keys** of the next batch are those of its elements. -/
theorem Ready.prepareNextBatch (h : Ready d b s R) :
    ∃ s', s.prepareNextBatch x = some (indexSet ((turns R b).flatMap fun e => x e.2), s') ∧
      Ready d b s' (R.rotate b) ∧ s'.batchData = (turns R b).map some := by
  obtain ⟨s', hfill, h', hdata⟩ := h.fill
  have hread : s'.batchData.mapM id = some (turns R b) := by
    rw [hdata, mapM_eq_some, List.forall₂_map_left_iff]
    exact List.forall₂_same.mpr fun _ _ => rfl
  refine ⟨s', ?_, h', hdata⟩
  simp [BatchDataSampler.prepareNextBatch, h.ahead.isEmpty, hfill, hread]

/-- **One batch** holds the elements that come next. -/
theorem Ready.prepares (h : Ready d b s R) {call : BatchCall} (hcall : call.Prepares) :
    ∃ s', step x s call = some (s', [(turns R b).map some]) ∧ Ready d b s' (R.rotate b) := by
  cases call with
  | randomStartPoint draw draw' => exact hcall.elim
  | prepareNextBatch =>
      obtain ⟨s', hprepare, h', hdata⟩ := h.prepareNextBatch (x := x)
      refine ⟨s', ?_, h'⟩
      simp [step, hprepare, getDataPtrs, h'.ahead.isEmpty, hdata]
  | prepareNextBatchData =>
      obtain ⟨s', hfill, h', hdata⟩ := h.fill
      refine ⟨s', ?_, h'⟩
      simp [step, prepareNextBatchData, h.ahead.isEmpty, hfill, getDataPtrs, h'.ahead.isEmpty, hdata]

/-- **Batch after batch** the elements take turns. -/
theorem Ready.batches (h : Ready d b s R) {calls : List BatchCall}
    (hcalls : ∀ call ∈ calls, call.Prepares) :
    ∃ s' batches, run (step x) s calls = some (s', batches) ∧ batches.length = calls.length ∧
      batches.flatten = (turns R (calls.length * b)).map some := by
  induction calls generalizing s R with
  | nil => exact ⟨s, [], rfl, rfl, by simp⟩
  | cons call calls ih =>
      obtain ⟨hcall, hcalls⟩ := List.forall_mem_cons.mp hcalls
      obtain ⟨s₁, hstep, h₁⟩ := h.prepares (x := x) hcall
      obtain ⟨s', batches, hrun, hlength, hflatten⟩ := ih h₁ hcalls
      refine ⟨s', (turns R b).map some :: batches, ?_, by simp [hlength], ?_⟩
      · rw [run_cons, hstep, Option.bind_some, hrun, Option.bind_some, List.singleton_append]
      · rw [List.flatten_cons, hflatten, List.length_cons, Nat.succ_mul, Nat.add_comm, turns_add,
          List.map_append]

/-- Every call returns. -/
theorem Ready.step (h : Ready d b s R) (call : BatchCall) :
    ∃ s' out R', step x s call = some (s', out) ∧ Ready d b s' R' := by
  by_cases hcall : call.Prepares
  · obtain ⟨s', hstep, h'⟩ := h.prepares (x := x) hcall
    exact ⟨s', _, _, hstep, h'⟩
  · cases call with
    | randomStartPoint draw draw' =>
        obtain ⟨sampler, R', hsome, hsampler⟩ := h.ahead.randomStartPoint draw draw'
        refine ⟨{ s with dataSampler := sampler }, [], R', ?_, hsampler, h.batchSize, h.length_eq⟩
        simp [BatchDataSampler.step, hsome]
    | prepareNextBatch => exact (hcall trivial).elim
    | prepareNextBatchData => exact (hcall trivial).elim

/-- Every sequence of calls returns. -/
theorem Ready.run_calls (h : Ready d b s R) (calls : List BatchCall) :
    ∃ s' out R', run (BatchDataSampler.step x) s calls = some (s', out) ∧ Ready d b s' R' := by
  obtain ⟨s', out, hrun, R', h'⟩ := run_total (I := fun _ s => ∃ R, Ready d b s R)
    (P := fun _ _ _ => True) (fun {out s call} ⟨R, h⟩ _ => by
      obtain ⟨s', o, R', hstep, h'⟩ := h.step (x := x) call
      exact ⟨s', o, hstep, R', h'⟩)
    ⟨R, h⟩ (along_of_forall (fun _ _ => trivial) [] s : Along _ _ [] s calls)
  exact ⟨s', out, R', hrun, h'⟩

theorem ready_new (hne : d.empty = false) (b : ℕ) : ∃ R, Ready d b (new d b) R := by
  obtain ⟨R, hR⟩ := DataSampler.ahead_new hne
  exact ⟨R, hR, rfl, List.length_replicate ..⟩

end BatchDataSampler

/-! ## Every element in its turn -/

/-- How often the element at a place is among those that are visited. -/
def visits {T : Type} (visited : List (Element T)) (place : ℕ × ℕ) : ℕ :=
  (visited.map Prod.fst).count place

/-- **The sampler goes round the data.**  Whatever has been called before, the next calls of `next`,
as many as there are elements, return the elements of the data store in their cyclic order; and the
batches that are prepared one after the other visit all elements equally often, up to one. -/
theorem sampling_cycles {T : Type} (datastore : DataStore T) (hne : 0 < datastore.getDataSize)
    (x : T → List ℕ) :
    (∀ calls, ∃ s out, run DataSampler.step (.new datastore) calls = some (s, out) ∧
      (∀ e ∈ out, e ∈ datastore.elements) ∧
      ∃ s' round, run DataSampler.step s (List.replicate datastore.getDataSize .next) =
        some (s', round) ∧ round ~r datastore.elements) ∧
    ∀ batchSize calls, ∃ s out,
      run (BatchDataSampler.step x) (.new datastore batchSize) calls = some (s, out) ∧
      ∀ prepares : List BatchCall, (∀ call ∈ prepares, call.Prepares) →
        ∃ s' batches visited, run (BatchDataSampler.step x) s prepares = some (s', batches) ∧
          batches.length = prepares.length ∧ batches.flatten = visited.map some ∧
          visited.length = prepares.length * batchSize ∧
          ∀ e ∈ datastore.elements, ∀ e' ∈ datastore.elements,
            visits visited e.1 ≤ visits visited e'.1 + 1 := by
  have hnonempty : datastore.empty = false := by rw [empty, if_pos hne]
  have hlength : ∀ {R}, R ~r datastore.elements → R.length = datastore.getDataSize :=
    fun hR => hR.perm.length_eq.trans length_elements
  constructor
  · intro calls
    obtain ⟨R₀, h₀⟩ := DataSampler.ahead_new hnonempty
    obtain ⟨s, out, R, hrun, h, hmem⟩ := h₀.run_calls calls
    obtain ⟨s', hround, -⟩ := h.run_next datastore.getDataSize
    rw [← hlength h.isRotated, turns_length, hlength h.isRotated] at hround
    exact ⟨s, out, hrun, hmem, s', R, hround, h.isRotated⟩
  · intro batchSize calls
    obtain ⟨R₀, h₀⟩ := BatchDataSampler.ready_new hnonempty batchSize
    obtain ⟨s, out, R, hrun, h⟩ := h₀.run_calls (x := x) calls
    refine ⟨s, out, hrun, fun prepares hprepares => ?_⟩
    obtain ⟨s', batches, hbatches, hcount, hflatten⟩ := h.batches (x := x) hprepares
    have hrotated := h.ahead.isRotated
    have hpos : R ≠ [] := fun hnil => by
      have hsize := hlength hrotated
      rw [hnil, List.length_nil] at hsize
      omega
    have hnodup : (R.map Prod.fst).Nodup :=
      (hrotated.perm.map Prod.fst).nodup_iff.mpr nodup_places
    have hplace : ∀ e ∈ datastore.elements, e.1 ∈ R.map Prod.fst :=
      fun e he => List.mem_map_of_mem (hrotated.mem_iff.mpr he)
    refine ⟨s', batches, _, hbatches, hcount, hflatten, length_turns hpos _, fun e he e' he' => ?_⟩
    rw [visits, visits, turns_map]
    exact count_turns_le hnodup (hplace e he) (hplace e' he') _

/-- A sampler that is sent to an empty chunk stops at the next one, and goes round from there. -/
theorem sampling_cycles_emptyChunks :
    ∃ s s' round, run DataSampler.step (.new [[], [7], [1, 2, 3], []])
        [.next, .randomStartPoint 3 1, .next] = some (s, [((1, 0), 7), ((1, 0), 7)]) ∧
      run DataSampler.step s (List.replicate 4 .next) = some (s', round) ∧
      round ~r elements [[], [7], [1, 2, 3], []] := by
  obtain ⟨s, out, hrun, -, s', round, hround, hrotated⟩ :=
    (sampling_cycles [[], [7], [1, 2, 3], []] (by decide) fun _ => []).1
      [.next, .randomStartPoint 3 1, .next]
  have hout : ((1, 0), 7) :: ((1, 0), 7) :: [] = out := by
    have hsnd := congrArg (Option.map Prod.snd) hrun
    exact Option.some.inj hsnd
  exact ⟨s, s', round, hout ▸ hrun, hround, hrotated⟩

end FlexPS.Datastore
