import Mathlib.Algebra.GroupWithZero.Nat
import Mathlib.Data.List.Nodup
import Mathlib.Data.Nat.Find
import FlexPS.Lib.Strides

/-!
# The data store

The training data of a process: a vector, called a chunk, for every local worker.

## Main definitions

* `DataStore`, `DataStore.getDataSize`, `DataStore.findChunk` — the chunks, their size together, and
  the search for one that is not empty.
* `DataStore.elements` — the elements with their places.
-/

namespace FlexPS.Datastore

open Lib

/-- `DataStore`: the chunks of the local workers. -/
abbrev DataStore (T : Type) := List (List T)

namespace DataStore

variable {T : Type} {d : DataStore T} {c : ℕ}

/-- `get_data_size` of `DataStoreWrapper`. -/
def getDataSize (d : DataStore T) : ℕ := (d.map List.length).sum

/-- `empty` of `DataStoreWrapper`. -/
def empty (d : DataStore T) : Bool := if 0 < getDataSize d then false else true

/-- The loop that looks for a chunk that is not empty, round the chunks. -/
def findChunk (d : DataStore T) : ℕ → ℕ → Option ℕ
  | 0, _ => none
  | fuel + 1, chunkId => do
      let chunk ← d[chunkId]?
      if chunk.isEmpty then findChunk d fuel ((chunkId + 1) % d.length) else some chunkId

/-- A place in the data store, and the element that is there. -/
abbrev Element (T : Type) := (ℕ × ℕ) × T

/-- The elements of a chunk. -/
def chunkElements (chunk : List T) (c : ℕ) : List (Element T) :=
  chunk.zipIdx.map fun p => ((c, p.2), p.1)

/-- The elements of the chunks from `c` on. -/
def elementsFrom (d : DataStore T) (c : ℕ) : List (Element T) :=
  (d.zipIdx.drop c).flatMap fun p => chunkElements p.1 p.2

/-- All elements, with their places. -/
def elements (d : DataStore T) : List (Element T) := elementsFrom d 0

theorem elementsFrom_cons (hc : c < d.length) :
    elementsFrom d c = chunkElements d[c] c ++ elementsFrom d (c + 1) := by
  rw [elementsFrom, drop_zipIdx_cons hc, List.flatMap_cons, elementsFrom]

theorem elementsFrom_of_le (hc : d.length ≤ c) : elementsFrom d c = [] := by
  have hdrop : d.zipIdx.drop c = [] := List.drop_of_length_le (by rwa [List.length_zipIdx])
  rw [elementsFrom, hdrop, List.flatMap_nil]

/-- Chunks that are empty have no elements. -/
theorem elementsFrom_skip {k : ℕ} (hempty : ∀ j < k, d[c + j]? = some []) :
    elementsFrom d c = elementsFrom d (c + k) := by
  induction k with
  | zero => rfl
  | succ k ih =>
      obtain ⟨hlt, hnil⟩ := List.getElem?_eq_some_iff.mp (hempty k (Nat.lt_succ_self k))
      rw [ih fun j hj => hempty j (Nat.lt_succ_of_lt hj), elementsFrom_cons hlt, hnil]
      rfl

/-- The elements of a chunk from a place on. -/
theorem chunkElements_drop {chunk : List T} {i : ℕ} (hi : i < chunk.length) :
    (chunkElements chunk c).drop i = ((c, i), chunk[i]) :: (chunkElements chunk c).drop (i + 1) := by
  rw [chunkElements, ← List.map_drop, drop_zipIdx_cons hi, List.map_cons, List.map_drop]

theorem chunkElements_drop_of_le {chunk : List T} {i : ℕ} (hi : chunk.length ≤ i) :
    (chunkElements chunk c).drop i = [] :=
  List.drop_of_length_le (by rwa [chunkElements, List.length_map, List.length_zipIdx])

/-- The elements from a chunk on come last. -/
theorem elements_eq_append (hc : c ≤ d.length) :
    ∃ before, d.elements = before ++ elementsFrom d c := by
  induction c with
  | zero => exact ⟨[], rfl⟩
  | succ c ih =>
      obtain ⟨before, heq⟩ := ih (Nat.le_of_succ_le hc)
      rw [elementsFrom_cons hc] at heq
      exact ⟨before ++ chunkElements d[c] c, by rw [heq, List.append_assoc]⟩

theorem mem_elements {i : ℕ} (hc : c < d.length) (hi : i < d[c].length) :
    ((c, i), d[c][i]) ∈ d.elements := by
  obtain ⟨before, heq⟩ := elements_eq_append (Nat.le_of_lt hc)
  have hchunk : ((c, i), d[c][i]) ∈ (chunkElements d[c] c).drop i := by
    rw [chunkElements_drop hi]
    exact List.mem_cons_self
  rw [heq, elementsFrom_cons hc]
  exact List.mem_append_right _ (List.mem_append_left _ (List.mem_of_mem_drop hchunk))

theorem length_elements : d.elements.length = d.getDataSize := by
  have hsizes : ∀ (d : DataStore T) (c : ℕ),
      ((d.zipIdx c).flatMap fun p => chunkElements p.1 p.2).length = d.getDataSize := by
    intro d
    induction d with
    | nil => simp [getDataSize]
    | cons chunk d ih =>
        intro c
        rw [List.zipIdx_cons, List.flatMap_cons, List.length_append, ih, getDataSize, getDataSize,
          List.map_cons, List.sum_cons, chunkElements, List.length_map, List.length_zipIdx]
  exact hsizes d 0

theorem map_fst_chunkElements (chunk : List T) (c : ℕ) :
    (chunkElements chunk c).map Prod.fst = (List.range' 0 chunk.length).map (Prod.mk c) := by
  rw [← List.zipIdx_map_snd, chunkElements, List.map_map, List.map_map]
  rfl

/-- The places of the elements are distinct. -/
theorem nodup_places : (d.elements.map Prod.fst).Nodup := by
  have hplaces : ∀ (d : DataStore T) (c : ℕ),
      (((d.zipIdx c).flatMap fun p => chunkElements p.1 p.2).map Prod.fst).Nodup ∧
        ∀ p ∈ (d.zipIdx c).flatMap fun p => chunkElements p.1 p.2, c ≤ p.1.1 := by
    intro d
    induction d with
    | nil => simp
    | cons chunk d ih =>
        intro c
        obtain ⟨hnodup, hle⟩ := ih (c + 1)
        have hchunk : ∀ p ∈ chunkElements chunk c, p.1.1 = c := by
          intro p hp
          obtain ⟨q, -, rfl⟩ := List.mem_map.mp hp
          rfl
        rw [List.zipIdx_cons, List.flatMap_cons, List.map_append]
        constructor
        · refine List.nodup_append.mpr ⟨?_, hnodup, ?_⟩
          · rw [map_fst_chunkElements]
            exact List.Nodup.map (fun _ _ h => (Prod.mk.inj h).2) (List.nodup_range' 1)
          · intro p hp q hq heq
            obtain ⟨x, hx, rfl⟩ := List.mem_map.mp hp
            obtain ⟨y, hy, rfl⟩ := List.mem_map.mp hq
            have hlater := hle y hy
            rw [← heq, hchunk x hx] at hlater
            exact Nat.not_succ_le_self c hlater
        · intro p hp
          rcases List.mem_append.mp hp with hp | hp
          · exact Nat.le_of_eq (hchunk p hp).symm
          · exact Nat.le_of_succ_le (hle p hp)
  exact (hplaces d 0).1

theorem getDataSize_eq_zero : getDataSize d = 0 ↔ ∀ chunk ∈ d, chunk = [] := by
  induction d with
  | nil => simp [getDataSize]
  | cons chunk d ih =>
      rw [getDataSize, List.map_cons, List.sum_cons, Nat.add_eq_zero_iff, List.length_eq_zero_iff,
        List.forall_mem_cons]
      exact and_congr_right fun _ => ih

theorem empty_iff : empty d = true ↔ ∀ chunk ∈ d, chunk = [] := by
  rw [← getDataSize_eq_zero, empty]
  split
  · next hpos => exact iff_of_false Bool.false_ne_true (Nat.ne_of_gt hpos)
  · next hzero => exact iff_of_true rfl (Nat.eq_zero_of_not_pos hzero)

/-- Going round the chunks from any of them, one that is not empty is reached before the round is
over. -/
theorem exists_next (hne : empty d = false) (hc : c < d.length) :
    ∃ (k : ℕ) (chunk : List T), k < d.length ∧ d[(c + k) % d.length]? = some chunk ∧ chunk ≠ [] ∧
      ∀ j < k, d[(c + j) % d.length]? = some [] := by
  have hsome : ∃ (i : ℕ) (chunk : List T), d[i]? = some chunk ∧ chunk ≠ [] := by
    by_contra hnone
    push Not at hnone
    have hempty : empty d = true := empty_iff.mpr fun chunk hmem => by
      obtain ⟨i, hi⟩ := List.mem_iff_getElem?.mp hmem
      exact hnone i chunk hi
    exact Bool.false_ne_true (hne.symm.trans hempty)
  obtain ⟨i, chunk, hi, hnot⟩ := hsome
  have hlt : i < d.length := (List.getElem?_eq_some_iff.mp hi).1
  have hreach : ∃ k < d.length, (c + k) % d.length = i := by
    rcases Nat.le_total c i with hle | hle
    · refine ⟨i - c, by omega, ?_⟩
      rw [Nat.add_sub_cancel' hle, Nat.mod_eq_of_lt hlt]
    · rcases Nat.eq_or_lt_of_le hle with rfl | hlt'
      · exact ⟨0, by omega, Nat.mod_eq_of_lt hlt⟩
      · refine ⟨i + d.length - c, by omega, ?_⟩
        rw [Nat.add_sub_cancel' (by omega), Nat.add_mod_right, Nat.mod_eq_of_lt hlt]
  obtain ⟨k₀, hk₀, hround⟩ := hreach
  classical
  have hfound : ∃ (k : ℕ) (chunk : List T), d[(c + k) % d.length]? = some chunk ∧ chunk ≠ [] :=
    ⟨k₀, chunk, hround ▸ hi, hnot⟩
  obtain ⟨chunk', hchunk', hnot'⟩ := Nat.find_spec hfound
  have hle : Nat.find hfound ≤ k₀ := Nat.find_min' hfound ⟨chunk, hround ▸ hi, hnot⟩
  refine ⟨Nat.find hfound, chunk', Nat.lt_of_le_of_lt hle hk₀, hchunk', hnot', fun j hj => ?_⟩
  have hlt' : (c + j) % d.length < d.length := Nat.mod_lt _ (Nat.zero_lt_of_lt hc)
  have hfirst := Nat.find_min hfound hj
  push Not at hfirst
  rw [List.getElem?_eq_getElem hlt', hfirst _ (List.getElem?_eq_getElem hlt')]

/-- The chunks before the first one that is not empty are empty. -/
theorem exists_first (hne : empty d = false) (hpos : 0 < d.length) :
    ∃ (c : ℕ) (chunk : List T), d[c]? = some chunk ∧ chunk ≠ [] ∧ ∀ j < c, d[j]? = some [] := by
  obtain ⟨k, chunk, hk, hchunk, hnot, hskip⟩ := exists_next hne hpos
  rw [Nat.zero_add, Nat.mod_eq_of_lt hk] at hchunk
  refine ⟨k, chunk, hchunk, hnot, fun j hj => ?_⟩
  have hfirst := hskip j hj
  rwa [Nat.zero_add, Nat.mod_eq_of_lt (Nat.lt_trans hj hk)] at hfirst

/-- **The search** finds the next chunk that is not empty, round the chunks. -/
theorem findChunk_eq {k fuel : ℕ} {chunk : List T} (hc : c < d.length) (hfuel : k < fuel)
    (hchunk : d[(c + k) % d.length]? = some chunk) (hne : chunk ≠ [])
    (hskip : ∀ j < k, d[(c + j) % d.length]? = some []) :
    findChunk d fuel c = some ((c + k) % d.length) := by
  induction k generalizing c fuel with
  | zero =>
      rw [Nat.add_zero, Nat.mod_eq_of_lt hc] at hchunk ⊢
      cases fuel with
      | zero => exact absurd hfuel (Nat.lt_irrefl 0)
      | succ fuel => simp [findChunk, hchunk, hne]
  | succ k ih =>
      have hround : ∀ j, ((c + 1) % d.length + j) % d.length = (c + (j + 1)) % d.length := by
        intro j
        rw [Nat.mod_add_mod, Nat.add_assoc, Nat.add_comm 1 j]
      have hfirst := hskip 0 (Nat.succ_pos k)
      rw [Nat.add_zero, Nat.mod_eq_of_lt hc] at hfirst
      cases fuel with
      | zero => exact absurd hfuel (Nat.not_lt_zero _)
      | succ fuel =>
          have hrest := @ih ((c + 1) % d.length) fuel (Nat.mod_lt _ (Nat.zero_lt_of_lt hc))
            (Nat.lt_of_succ_lt_succ hfuel)
          rw [hround] at hrest
          have hfound := hrest hchunk fun j hj => by
            rw [hround]
            exact hskip (j + 1) (Nat.succ_lt_succ hj)
          simp [findChunk, hfirst, hfound]

end DataStore

end FlexPS.Datastore
