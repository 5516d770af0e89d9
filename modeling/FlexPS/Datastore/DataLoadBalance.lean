import FlexPS.Datastore.DataStore
import FlexPS.Lib.Machine
import Mathlib.Algebra.Group.Int.Defs

/-!
# Balanced loading

The threads of a task share a data store: in every chunk the thread at position `t` of `n` takes the
elements `t`, `t + n`, `t + 2 n` and so on, and begins again at its own position in the next chunk.
The index is an `int` to which every call of `has_next` adds `n`, also when nothing is left.  A sum
beyond the last `int` is undefined, in the model `none`.

## Main definitions

* `DataLoadBalance`, `DataLoadBalance.hasNext`, `DataLoadBalance.next`, `DataLoadBalance.reset` — the
  cursor of a thread.
* `DataLoadBalance.loop` — `while (has_next()) next()`.
* `DataLoadBalance.Partitions` — the cursors visit every element once, also after `reset`.
* `DataLoadBalance.data_partitioned` — they do if and only if `DataLoadBalance.IndicesFit`.
-/

namespace FlexPS.Datastore

open Lib DataStore

/-- `DataLoadBalance`; `chunk_id_` and `local_id_` are `int`s. -/
structure DataLoadBalance (T : Type) where
  chunkId : ℕ
  localId : ℤ
  threadNum : ℕ
  threadPos : ℕ
  datastore : DataStore T
  isEmpty : Bool

/-- The calls of a cursor. -/
inductive LoadCall where
  | hasNext
  | next
  | reset
  deriving DecidableEq

/-- What a call returns. -/
inductive LoadEvent (T : Type) where
  | more (answer : Bool)
  | visited (element : Element T)

namespace DataLoadBalance

variable {T : Type}

/-- Whether an index is in a chunk; a negative `int` is larger than every size. -/
def Inside (localId : ℤ) (size : ℕ) : Prop := 0 ≤ localId ∧ localId < size

instance decidableInside (localId : ℤ) (size : ℕ) : Decidable (Inside localId size) :=
  inferInstanceAs (Decidable (_ ∧ _))

/-- The constructor, which looks for a chunk that is not empty. -/
def new (datastore : DataStore T) (threadNum threadPos : ℕ) : Option (DataLoadBalance T) := do
  let isEmpty := datastore.empty
  let chunkId ←
    if isEmpty then some 0
    else (datastore.findChunk datastore.length 0).filter fun chunkId => chunkId < 2 ^ 31
  some ⟨chunkId, threadPos - threadNum, threadNum, threadPos, datastore, isEmpty⟩

/-- `reset`. -/
def reset (s : DataLoadBalance T) : DataLoadBalance T :=
  { s with localId := s.threadPos - s.threadNum, chunkId := 0 }

/-- The loop of `has_next`; an access out of range is `none`, too. -/
def findNext : ℕ → DataLoadBalance T → Option (Bool × DataLoadBalance T)
  | 0, _ => none
  | fuel + 1, s => do
      let last ← s.datastore.getLast?
      if s.chunkId = s.datastore.length - 1 ∧ ¬ Inside s.localId last.length then some (false, s)
      else
        let chunk ← s.datastore[s.chunkId]?
        if Inside s.localId chunk.length then some (true, s)
        else if s.chunkId + 1 < 2 ^ 31 then
          findNext fuel { s with localId := s.threadPos, chunkId := s.chunkId + 1 }
        else none

/-- `has_next`, which moves on to the next element; every chunk is looked at once at most. -/
def hasNext (s : DataLoadBalance T) : Option (Bool × DataLoadBalance T) :=
  if s.isEmpty then some (false, s)
  else if s.localId + s.threadNum < 2 ^ 31 then
    findNext s.datastore.length { s with localId := s.localId + s.threadNum }
  else none

/-- `next`, with the place of the element. -/
def next (s : DataLoadBalance T) : Option (Element T) :=
  if s.localId < 0 then none
  else do
    let chunk ← s.datastore[s.chunkId]?
    let x ← chunk[s.localId.toNat]?
    some ((s.chunkId, s.localId.toNat), x)

/-- A call. -/
def step (s : DataLoadBalance T) : LoadCall → Option (DataLoadBalance T × List (LoadEvent T))
  | .hasNext => s.hasNext.map fun r => (r.2, [.more r.1])
  | .next => s.next.map fun e => (s, [.visited e])
  | .reset => some (s.reset, [])

/-- `while (has_next()) next()`: the elements that are visited. -/
def loop : ℕ → DataLoadBalance T → Option (List (Element T) × DataLoadBalance T)
  | 0, _ => none
  | fuel + 1, s => do
      let (more, s) ← s.hasNext
      if more then do
        let element ← s.next
        let (elements, s) ← loop fuel s
        some (element :: elements, s)
      else some ([], s)

/-! ## What is to be visited -/

/-- The loop ends after visiting these elements. -/
def Visits (s : DataLoadBalance T) (elements : List (Element T)) : Prop :=
  ∃ fuel s', loop fuel s = some (elements, s')

/-- Further calls of `has_next` answer that nothing is left. -/
def StaysFalse (s : DataLoadBalance T) (k : ℕ) : Prop :=
  ∃ s', run step s (List.replicate k .hasNext) = some (s', List.replicate k (.more false))

/-- A call of `has_next` that does not pass the last `int` is in range and returns; the element that
it announces is there.  When it announces none, neither do further calls, as long as they do not
pass the last `int` either. -/
def Answers (s : DataLoadBalance T) : Prop :=
  (s.isEmpty = true ∨ s.localId + s.threadNum < 2 ^ 31) →
    ∃ answer s', s.hasNext = some (answer, s') ∧
      (answer = true → ∃ element, s'.next = some element) ∧
      (answer = false → ∀ k, s'.StaysFalse k ↔
        s'.isEmpty = true ∨ k = 0 ∨ s'.localId + k * s'.threadNum < 2 ^ 31)

/-- **The cursors partition the data**: together they visit every element once, and each of them
visits the same elements again after `reset`, whatever has been called before. -/
structure Partitions (datastore : DataStore T) (threadNum : ℕ)
    (visited : ℕ → List (Element T)) : Prop where
  once : ((List.range threadNum).flatMap visited).Perm datastore.elements
  cursor : ∀ threadPos < threadNum, ∃ s₀, new datastore threadNum threadPos = some s₀ ∧
    s₀.Visits (visited threadPos) ∧ ∀ calls s out, run step s₀ calls = some (s, out) →
      s.Answers ∧ s.reset.Visits (visited threadPos)

/-- The `int`s suffice: the indices of the elements with a round more, and those of the chunks. -/
def IndicesFit (datastore : DataStore T) (threadNum : ℕ) : Prop :=
  ∀ chunk ∈ datastore, chunk ≠ [] →
    chunk.length + threadNum ≤ 2 ^ 31 ∧ datastore.length ≤ 2 ^ 31

instance decidableIndicesFit (datastore : DataStore T) (threadNum : ℕ) :
    Decidable (IndicesFit datastore threadNum) :=
  inferInstanceAs (Decidable (∀ chunk ∈ datastore, _ → _))

theorem IndicesFit.bounds {d : DataStore T} {n : ℕ} (hfits : IndicesFit d n)
    (hempty : ¬ d.empty = true) : n ≤ 2 ^ 31 ∧ d.length ≤ 2 ^ 31 := by
  rw [empty_iff] at hempty
  push Not at hempty
  obtain ⟨chunk, hchunk, hne⟩ := hempty
  obtain ⟨hsize, hlength⟩ := hfits chunk hchunk hne
  exact ⟨by omega, hlength⟩

theorem IndicesFit.lt {d : DataStore T} {n c i : ℕ} (hfits : IndicesFit d n) (hc : c < d.length)
    (hi : i < (d.getD c []).length) : i + n < 2 ^ 31 := by
  have hget : d.getD c [] = d[c] := by simp [List.getD_eq_getElem?_getD, hc]
  rw [hget] at hi
  have hfit := (hfits d[c] (List.getElem_mem hc) (List.ne_nil_of_length_pos (by omega))).1
  omega

/-! ## What a cursor has still to visit -/

variable {d : DataStore T} {n t c i : ℕ} {s s' : DataLoadBalance T}

theorem getElem?_eq_getD (hc : c < d.length) : d[c]? = some (d.getD c []) := by
  rw [List.getD_eq_getElem?_getD, List.getElem?_eq_getElem hc]
  rfl

/-- The elements at the positions of a cursor. -/
def ofThread (n t : ℕ) (elements : List (Element T)) : List (Element T) :=
  elements.filter fun e => e.1.2 % n = t

/-- The elements that are left from index `i` of chunk `c` on. -/
def left (d : DataStore T) (n t c i : ℕ) : List (Element T) :=
  (stride n t (d.getD c []) i).map (fun p => ((c, p.2), p.1)) ++ ofThread n t (elementsFrom d (c + 1))

theorem ofThread_chunkElements (ht : t < n) (chunk : List T) (c : ℕ) :
    ofThread n t (chunkElements chunk c) =
      (stride n t chunk t).map fun p => ((c, p.2), p.1) := by
  rw [← stride_start ht, ofThread, chunkElements, List.filter_map]
  rfl

/-- A chunk from the cursor's own position on. -/
theorem left_start (ht : t < n) (hc : c < d.length) :
    left d n t c t = ofThread n t (elementsFrom d c) := by
  have hget : d.getD c [] = d[c] := by simp [List.getD_eq_getElem?_getD, hc]
  rw [left, hget, ← ofThread_chunkElements ht, elementsFrom_cons hc, ofThread, ofThread, ofThread,
    List.filter_append]

/-- The chunk is used up, and the next one begins at the cursor's own position. -/
theorem left_next (ht : t < n) (hc : c + 1 < d.length) (hi : (d.getD c []).length ≤ i) :
    left d n t c i = left d n t (c + 1) t := by
  rw [left_start ht hc, left, stride_of_le hi]
  rfl

/-- The last chunk is used up. -/
theorem left_last (hc : d.length ≤ c + 1) (hi : (d.getD c []).length ≤ i) :
    left d n t c i = [] := by
  rw [left, stride_of_le hi, elementsFrom_of_le hc]
  rfl

/-- An element of the chunk is visited. -/
theorem left_cons (hn : 0 < n) (hmod : i % n = t) {x : T} (hx : (d.getD c [])[i]? = some x) :
    left d n t c i = ((c, i), x) :: left d n t c (i + n) := by
  obtain ⟨hi, rfl⟩ := List.getElem?_eq_some_iff.mp hx
  rw [left, stride_cons hi hmod hn]
  rfl

/-- Where there are no elements, none are left. -/
theorem left_of_empty (hempty : d.empty = true) (hc : c < d.length) : left d n t c i = [] := by
  have hall := empty_iff.mp hempty
  have hchunk : d.getD c [] = [] := by
    rw [List.getD_eq_getElem?_getD, List.getElem?_eq_getElem hc]
    exact hall _ (List.getElem_mem hc)
  have hrest : elementsFrom d (c + 1) = elementsFrom d (c + 1 + (d.length - (c + 1))) := by
    refine elementsFrom_skip fun j hj => ?_
    have hlt : c + 1 + j < d.length := by omega
    rw [List.getElem?_eq_getElem hlt, hall _ (List.getElem_mem hlt)]
  rw [left, hchunk, stride_of_le (Nat.zero_le i), hrest, elementsFrom_of_le (by omega)]
  rfl

/-- Where the cursor is: its next call of `has_next` looks at index `i` of the chunk first. -/
structure At (d : DataStore T) (n t : ℕ) (s : DataLoadBalance T) (i : ℕ) : Prop where
  datastore : s.datastore = d
  threadNum : s.threadNum = n
  threadPos : s.threadPos = t
  isEmpty : s.isEmpty = d.empty
  chunk : s.chunkId < d.length
  small : s.chunkId < 2 ^ 31
  index : s.localId = i - n
  mod : i % n = t

/-- The last chunk is used up. -/
structure Ended (d : DataStore T) (s : DataLoadBalance T) : Prop where
  last : s.chunkId = d.length - 1
  out : (d.getD (d.length - 1) []).length ≤ s.localId

/-! ## The calls -/

/-- `reset` goes back to the first chunk. -/
theorem At.reset (ht : t < n) (h : At d n t s i) : At d n t s.reset t := by
  refine ⟨h.datastore, h.threadNum, h.threadPos, h.isEmpty, Nat.zero_lt_of_lt h.chunk,
    Nat.two_pow_pos 31, ?_, Nat.mod_eq_of_lt ht⟩
  rw [DataLoadBalance.reset, h.threadPos, h.threadNum]

theorem reset_left (ht : t < n) (h : At d n t s i) :
    left d n t s.reset.chunkId t = ofThread n t d.elements :=
  left_start ht (Nat.zero_lt_of_lt h.chunk)

/-- `has_next` adds the number of threads. -/
theorem At.advance (h : At d n t s i) :
    At d n t { s with localId := s.localId + s.threadNum } (i + n) := by
  refine ⟨h.datastore, h.threadNum, h.threadPos, h.isEmpty, h.chunk, h.small, ?_, ?_⟩
  · simp only [h.index, h.threadNum]
    omega
  · rw [Nat.add_mod_right, h.mod]

/-- The cursor begins again at its own position in the next chunk. -/
theorem At.nextChunk (ht : t < n) (h : At d n t s i) (hc : s.chunkId + 1 < d.length)
    (hsmall : s.chunkId + 1 < 2 ^ 31) :
    At d n t { s with localId := s.threadPos, chunkId := s.chunkId + 1 } (t + n) := by
  refine ⟨h.datastore, h.threadNum, h.threadPos, h.isEmpty, hc, hsmall, ?_, ?_⟩
  · simp only [h.threadPos]
    omega
  · rw [Nat.add_mod_right, Nat.mod_eq_of_lt ht]

/-- A round of the loop of `has_next`. -/
theorem findNext_succ (h : At d n t s (i + n)) (fuel : ℕ) :
    findNext (fuel + 1) s =
      if i < (d.getD s.chunkId []).length then some (true, s)
      else if s.chunkId = d.length - 1 then some (false, s)
      else if s.chunkId + 1 < 2 ^ 31 then
        findNext fuel { s with localId := s.threadPos, chunkId := s.chunkId + 1 }
      else none := by
  have hindex : s.localId = i := by
    rw [h.index]
    omega
  have hchunk : d[s.chunkId]? = some (d.getD s.chunkId []) := getElem?_eq_getD h.chunk
  have hlast : d.getLast? = some (d.getD (d.length - 1) []) := by
    rw [List.getLast?_eq_getElem?]
    exact getElem?_eq_getD (Nat.sub_lt (Nat.zero_lt_of_lt h.chunk) Nat.one_pos)
  have hinside : ∀ size : ℕ, Inside s.localId size ↔ i < size := fun size => by
    rw [Inside, hindex]
    omega
  simp only [findNext, h.datastore, hlast, hchunk, hinside, Option.bind_eq_bind, Option.bind_some]
  by_cases hin : i < (d.getD s.chunkId []).length
  · have hnot : ¬ (s.chunkId = d.length - 1 ∧ ¬ i < (d.getD (d.length - 1) []).length) := by
      rintro ⟨heq, hout⟩
      exact hout (heq ▸ hin)
    rw [if_neg hnot, if_pos hin, if_pos hin]
  · by_cases heq : s.chunkId = d.length - 1
    · rw [heq] at hin
      rw [if_pos ⟨heq, hin⟩, if_neg (heq ▸ hin), if_pos heq]
    · rw [if_neg fun hand => heq hand.1, if_neg hin, if_neg hin, if_neg heq]

/-- `next` returns an element that is there. -/
theorem next_of_lt (h : At d n t s (i + n)) (hi : i < (d.getD s.chunkId []).length) :
    s.next = some ((s.chunkId, i), (d.getD s.chunkId [])[i]) := by
  have hindex : s.localId = i := by
    rw [h.index]
    omega
  rw [next, hindex, if_neg (Int.not_lt.mpr (Int.natCast_nonneg i)), h.datastore,
    getElem?_eq_getD h.chunk]
  simp only [Option.bind_eq_bind, Option.bind_some, Int.toNat_natCast, List.getElem?_eq_getElem hi]

/-- The answer of a call of `has_next` when `elements` were left, with the index after it: the first
of them is there, or there are none and the last chunk is used up. -/
def Announces (d : DataStore T) (n t : ℕ) (elements : List (Element T)) (answer : Bool)
    (s : DataLoadBalance T) (i : ℕ) : Prop :=
  match answer with
  | true => ∃ j x, i = j + n ∧ j < (d.getD s.chunkId []).length ∧
      s.next = some ((s.chunkId, j), x) ∧
      elements = ((s.chunkId, j), x) :: left d n t s.chunkId (j + n)
  | false => elements = [] ∧ (d.empty = true ∨ Ended d s)

/-- **The loop of `has_next`** finds the first element that is left, if there is one. -/
theorem findNext_announces (hn : 0 < n) (ht : t < n) {fuel : ℕ} {answer : Bool}
    (h : At d n t s (i + n)) (hfind : findNext fuel s = some (answer, s')) :
    ∃ i', At d n t s' i' ∧ Announces d n t (left d n t s.chunkId i) answer s' i' := by
  induction fuel generalizing s i with
  | zero => exact nomatch hfind
  | succ fuel ih =>
      have hmod : i % n = t := by
        rw [← h.mod, Nat.add_mod_right]
      rw [findNext_succ h] at hfind
      by_cases hin : i < (d.getD s.chunkId []).length
      · -- The element is in this chunk.
        rw [if_pos hin] at hfind
        obtain ⟨rfl, rfl⟩ := Prod.mk.inj (Option.some.inj hfind)
        refine ⟨i + n, h, i, _, rfl, hin, next_of_lt h hin, ?_⟩
        exact left_cons hn hmod (List.getElem?_eq_getElem hin)
      · have hout := Nat.le_of_not_lt hin
        rw [if_neg hin] at hfind
        by_cases heq : s.chunkId = d.length - 1
        · -- The last chunk is used up.
          rw [if_pos heq] at hfind
          obtain ⟨rfl, rfl⟩ := Prod.mk.inj (Option.some.inj hfind)
          refine ⟨i + n, h, left_last (by omega) hout, .inr ⟨heq, ?_⟩⟩
          rw [← heq, h.index]
          omega
        · have hnext : s.chunkId + 1 < d.length := by
            have := h.chunk
            omega
          rw [if_neg heq] at hfind
          obtain ⟨hsmall, hfind⟩ := Option.ite_none_right_eq_some.mp hfind
          rw [left_next ht hnext hout]
          exact ih (h.nextChunk ht hnext hsmall) hfind

/-- The loop of `has_next` ends. -/
theorem findNext_total (ht : t < n) {fuel : ℕ} (hlength : d.length ≤ 2 ^ 31)
    (h : At d n t s (i + n)) (hfuel : d.length ≤ s.chunkId + fuel) :
    ∃ answer s', findNext fuel s = some (answer, s') := by
  induction fuel generalizing s i with
  | zero => exact absurd h.chunk (Nat.not_lt_of_le hfuel)
  | succ fuel ih =>
      rw [findNext_succ h]
      by_cases hin : i < (d.getD s.chunkId []).length
      · exact ⟨true, s, if_pos hin⟩
      · rw [if_neg hin]
        by_cases heq : s.chunkId = d.length - 1
        · exact ⟨false, s, if_pos heq⟩
        · have hnext : s.chunkId + 1 < d.length := by
            have := h.chunk
            omega
          have hsmall := Nat.lt_of_lt_of_le hnext hlength
          rw [if_neg heq, if_pos hsmall]
          refine ih (h.nextChunk ht hnext hsmall) ?_
          simp only
          omega

/-- A call of `has_next` on a data store that is empty. -/
theorem hasNext_of_empty (hempty : d.empty = true) (h : At d n t s i) :
    s.hasNext = some (false, s) := by
  rw [hasNext, h.isEmpty, if_pos hempty]

/-- A call of `has_next` on a data store that is not empty. -/
theorem hasNext_eq (hempty : ¬ d.empty = true) (h : At d n t s i) :
    s.hasNext = if i < 2 ^ 31 then
        findNext d.length { s with localId := s.localId + s.threadNum } else none := by
  have hindex : s.localId + s.threadNum = i := by
    rw [h.index, h.threadNum]
    omega
  have hlt : ((i : ℤ) < 2 ^ 31) ↔ i < 2 ^ 31 := by omega
  rw [hasNext, h.isEmpty, if_neg hempty, hindex, h.datastore]
  simp only [hlt]

/-- **A call of `has_next`** announces the first element that is left, or that there is none. -/
theorem hasNext_announces (hn : 0 < n) (ht : t < n) {answer : Bool} (h : At d n t s i)
    (hnext : s.hasNext = some (answer, s')) :
    ∃ i', At d n t s' i' ∧ Announces d n t (left d n t s.chunkId i) answer s' i' := by
  by_cases hempty : d.empty = true
  · rw [hasNext_of_empty hempty h] at hnext
    obtain ⟨rfl, rfl⟩ := Prod.mk.inj (Option.some.inj hnext)
    exact ⟨i, h, left_of_empty hempty h.chunk, .inl hempty⟩
  · rw [hasNext_eq hempty h] at hnext
    obtain ⟨-, hfind⟩ := Option.ite_none_right_eq_some.mp hnext
    obtain ⟨i', h', hann⟩ := findNext_announces hn ht h.advance hfind
    exact ⟨i', h', hann⟩

/-- A call of `has_next` returns where no sum passes the last `int`. -/
theorem hasNext_total (ht : t < n) (h : At d n t s i)
    (hfits : d.empty = true ∨ i < 2 ^ 31 ∧ d.length ≤ 2 ^ 31) :
    ∃ answer s', s.hasNext = some (answer, s') := by
  by_cases hempty : d.empty = true
  · exact ⟨false, s, hasNext_of_empty hempty h⟩
  · obtain ⟨hi, hlength⟩ := hfits.resolve_left hempty
    rw [hasNext_eq hempty h, if_pos hi]
    exact findNext_total ht hlength h.advance (Nat.le_add_left _ _)

/-- A call leaves the cursor somewhere. -/
theorem At.step (hn : 0 < n) (ht : t < n) (h : At d n t s i) {call : LoadCall}
    {out : List (LoadEvent T)} (hstep : step s call = some (s', out)) : ∃ i', At d n t s' i' := by
  cases call with
  | hasNext =>
      obtain ⟨⟨answer, s₁⟩, hnext, heq⟩ := Option.map_eq_some_iff.mp hstep
      obtain ⟨rfl, -⟩ := Prod.mk.inj heq
      obtain ⟨i', h', -⟩ := hasNext_announces hn ht h hnext
      exact ⟨i', h'⟩
  | next =>
      obtain ⟨element, -, heq⟩ := Option.map_eq_some_iff.mp hstep
      obtain ⟨rfl, -⟩ := Prod.mk.inj heq
      exact ⟨i, h⟩
  | reset =>
      obtain ⟨rfl, -⟩ := Prod.mk.inj (Option.some.inj hstep)
      exact ⟨t, h.reset ht⟩

/-! ## When nothing is left -/

theorem staysFalse_succ (k : ℕ) :
    s.StaysFalse (k + 1) ↔ ∃ s', s.hasNext = some (false, s') ∧ s'.StaysFalse k := by
  rw [StaysFalse, List.replicate_succ]
  simp only [run_cons, step, StaysFalse]
  constructor
  · rintro ⟨s'', hrun⟩
    obtain ⟨⟨s₁, o₁⟩, hfirst, hrun⟩ := Option.bind_eq_some_iff.mp hrun
    obtain ⟨⟨s₂, o₂⟩, hrest, heq⟩ := Option.bind_eq_some_iff.mp hrun
    obtain ⟨⟨answer, s₃⟩, hnext, hfirst⟩ := Option.map_eq_some_iff.mp hfirst
    obtain ⟨rfl, rfl⟩ := Prod.mk.inj hfirst
    obtain ⟨rfl, hout⟩ := Prod.mk.inj (Option.some.inj heq)
    obtain ⟨hanswer, rfl⟩ := List.cons.inj hout
    obtain rfl := LoadEvent.more.inj hanswer
    exact ⟨s₃, hnext, s₂, hrest⟩
  · rintro ⟨s', hnext, s'', hrun⟩
    exact ⟨s'', by simp [hnext, hrun, List.replicate_succ]⟩

theorem Ended.advance (hended : Ended d s) :
    Ended d { s with localId := s.localId + s.threadNum } :=
  ⟨hended.last, Int.le_trans hended.out (Int.le_add_of_nonneg_right (Int.natCast_nonneg _))⟩

/-- A call of `has_next` after the end. -/
theorem Ended.hasNext (h : At d n t s i) (hended : Ended d s) (hempty : ¬ d.empty = true) :
    s.hasNext = if i < 2 ^ 31 then some (false, { s with localId := s.localId + s.threadNum })
      else none := by
  have hpos : d.length - 1 + 1 = d.length := by
    have := h.chunk
    omega
  have hout : ¬ i < (d.getD s.chunkId []).length := by
    have := hended.out
    rw [h.index] at this
    rw [hended.last]
    omega
  rw [hasNext_eq hempty h, ← hpos, findNext_succ h.advance]
  simp only [if_neg hout, if_pos hended.last]

/-- **When nothing is left**, `has_next` goes on saying so until it passes the last `int`. -/
theorem staysFalse_iff (h : At d n t s i) (hended : d.empty = true ∨ Ended d s) (k : ℕ) :
    s.StaysFalse k ↔ s.isEmpty = true ∨ k = 0 ∨ s.localId + k * s.threadNum < 2 ^ 31 := by
  induction k generalizing s i with
  | zero => exact iff_of_true ⟨s, rfl⟩ (.inr (.inl rfl))
  | succ k ih =>
      rw [staysFalse_succ]
      by_cases hempty : d.empty = true
      · have hself : s.isEmpty = true := h.isEmpty.trans hempty
        refine iff_of_true ⟨s, hasNext_of_empty hempty h, ?_⟩ (.inl hself)
        exact (ih h hended).mpr (.inl hself)
      · have hlast := hended.resolve_left hempty
        have hself : ¬ s.isEmpty = true := h.isEmpty ▸ hempty
        have hindex : s.localId + s.threadNum = i := by
          rw [h.index, h.threadNum]
          omega
        have hmul : s.localId + (k + 1 : ℕ) * s.threadNum = i + k * s.threadNum := by
          rw [← hindex, Int.natCast_add, Int.add_mul, Int.natCast_one, Int.one_mul]
          omega
        have hnonneg : (0 : ℤ) ≤ k * s.threadNum :=
          Int.mul_nonneg (Int.natCast_nonneg k) (Int.natCast_nonneg _)
        have hrest := ih h.advance (.inr hlast.advance)
        rw [hlast.hasNext h hempty, hmul]
        by_cases hi : i < 2 ^ 31
        · rw [if_pos hi]
          simp only [Option.some.injEq, Prod.mk.injEq, true_and, exists_eq_left']
          rw [hrest, hindex]
          refine or_congr_right ((or_iff_right_of_imp fun hzero => ?_).trans
            (or_iff_right k.succ_ne_zero).symm)
          have hlt : (i : ℤ) < 2 ^ 31 := by exact_mod_cast hi
          rw [hzero, Int.natCast_zero, Int.zero_mul, Int.add_zero]
          exact hlt
        · rw [if_neg hi]
          refine iff_of_false (fun ⟨_, hnone, _⟩ => nomatch hnone) ?_
          rintro (hempty' | hzero | hlt)
          · exact hself hempty'
          · exact k.succ_ne_zero hzero
          · omega

/-- What a call of `has_next` says holds. -/
theorem At.answers (hn : 0 < n) (ht : t < n) (hlength : d.empty = true ∨ d.length ≤ 2 ^ 31)
    (h : At d n t s i) : s.Answers := by
  intro hfits
  have hi : d.empty = true ∨ i < 2 ^ 31 ∧ d.length ≤ 2 ^ 31 := by
    rw [h.isEmpty, h.index, h.threadNum] at hfits
    rcases hlength with hempty | hlength
    · exact .inl hempty
    · exact hfits.imp_right fun hlt => ⟨by omega, hlength⟩
  obtain ⟨answer, s', hnext⟩ := hasNext_total ht h hi
  obtain ⟨i', h', hann⟩ := hasNext_announces hn ht h hnext
  refine ⟨answer, s', hnext, ?_, ?_⟩
  · rintro rfl
    obtain ⟨j, x, -, -, helement, -⟩ := hann
    exact ⟨_, helement⟩
  · rintro rfl
    exact staysFalse_iff h' hann.2

/-! ## The loop -/

/-- **The loop visits what is left.** -/
theorem At.visits (hn : 0 < n) (ht : t < n) (hfits : IndicesFit d n) (h : At d n t s i)
    (hi : d.empty = true ∨ i < 2 ^ 31) : s.Visits (left d n t s.chunkId i) := by
  generalize hk : (left d n t s.chunkId i).length = k
  induction k using Nat.strong_induction_on generalizing s i with
  | _ k ih =>
      have hall : d.empty = true ∨ i < 2 ^ 31 ∧ d.length ≤ 2 ^ 31 :=
        (Decidable.em _).imp_right fun hempty =>
          ⟨hi.resolve_left hempty, (hfits.bounds hempty).2⟩
      obtain ⟨answer, s', hnext⟩ := hasNext_total ht h hall
      obtain ⟨i', h', hann⟩ := hasNext_announces hn ht h hnext
      cases answer with
      | true =>
          obtain ⟨j, x, rfl, hj, helement, hleft⟩ := hann
          rw [hleft, List.length_cons] at hk
          obtain ⟨fuel, s'', hloop⟩ := ih _ (by omega) h' (.inr (hfits.lt h'.chunk hj)) rfl
          refine ⟨fuel + 1, s'', ?_⟩
          rw [loop, hleft]
          simp [hnext, helement, hloop]
      | false =>
          refine ⟨1, s', ?_⟩
          rw [loop, hann.1]
          simp [hnext]

/-- A loop that ends has not passed the last `int`. -/
theorem loop_lt (hn : 0 < n) (ht : t < n) (hempty : ¬ d.empty = true) {fuel : ℕ}
    {elements : List (Element T)} (h : At d n t s i) (hloop : loop fuel s = some (elements, s')) :
    i < 2 ^ 31 ∧ d.length ≤ 2 ^ 31 ∧ ∀ e ∈ elements, e.1.2 + n < 2 ^ 31 := by
  induction fuel generalizing s i elements with
  | zero => exact nomatch hloop
  | succ fuel ih =>
      obtain ⟨⟨answer, s₁⟩, hnext, hrest⟩ := Option.bind_eq_some_iff.mp hloop
      obtain ⟨i₁, h₁, hann⟩ := hasNext_announces hn ht h hnext
      have hi : i < 2 ^ 31 := by
        rw [hasNext_eq hempty h] at hnext
        exact (Option.ite_none_right_eq_some.mp hnext).1
      refine ⟨hi, ?_⟩
      cases answer with
      | true =>
          obtain ⟨j, x, rfl, -, helement, -⟩ := hann
          obtain ⟨element, hsome, hrest⟩ := Option.bind_eq_some_iff.mp hrest
          obtain ⟨⟨es, s₂⟩, hloop₁, heq⟩ := Option.bind_eq_some_iff.mp hrest
          obtain ⟨rfl, rfl⟩ := Prod.mk.inj (Option.some.inj heq)
          obtain rfl := Option.some.inj (helement.symm.trans hsome)
          obtain ⟨hj, hlength, hes⟩ := ih h₁ hloop₁
          exact ⟨hlength, List.forall_mem_cons.mpr ⟨hj, hes⟩⟩
      | false =>
          obtain ⟨rfl, rfl⟩ := Prod.mk.inj (Option.some.inj hrest)
          have hlast := (hann.2.resolve_left hempty).last
          have hsmall := h₁.small
          exact ⟨by omega, List.forall_mem_nil _⟩

/-- The constructor puts the cursor where nothing that is to be visited has been passed. -/
theorem new_spec (hd : d ≠ []) (ht : t < n) :
    ∃ s, left d n t s.chunkId t = ofThread n t d.elements ∧
      (s.chunkId < 2 ^ 31 → At d n t s t) ∧
      (d.empty = true ∨ d.length ≤ 2 ^ 31 → s.chunkId < 2 ^ 31) ∧
      new d n t = if s.chunkId < 2 ^ 31 then some s else none := by
  have hpos : 0 < d.length := List.length_pos_iff.mpr hd
  cases hempty : d.empty with
  | true =>
      refine ⟨⟨0, t - n, n, t, d, true⟩, left_start ht hpos, fun hsmall => ?_,
        fun _ => Nat.two_pow_pos 31, by simp [new, hempty]⟩
      exact ⟨rfl, rfl, rfl, hempty.symm, hpos, hsmall, rfl, Nat.mod_eq_of_lt ht⟩
  | false =>
      obtain ⟨c, chunk, hchunk, hne, hskip⟩ := exists_first hempty hpos
      have hlt : c < d.length := (List.getElem?_eq_some_iff.mp hchunk).1
      have hround : ∀ j ≤ c, (0 + j) % d.length = j := fun j hj => by
        rw [Nat.zero_add, Nat.mod_eq_of_lt (Nat.lt_of_le_of_lt hj hlt)]
      have hfind : findChunk d d.length 0 = some c := by
        rw [← hround c (Nat.le_refl c)]
        refine findChunk_eq hpos hlt (by rwa [hround c (Nat.le_refl c)]) hne fun j hj => ?_
        rw [hround j (Nat.le_of_lt hj)]
        exact hskip j hj
      refine ⟨⟨c, t - n, n, t, d, false⟩, ?_, fun hsmall => ?_, fun hlength => ?_, ?_⟩
      · have hfirst : d.elements = elementsFrom d (0 + c) :=
          elementsFrom_skip fun j hj => by rw [Nat.zero_add]; exact hskip j hj
        rw [left_start ht hlt, hfirst, Nat.zero_add]
      · exact ⟨rfl, rfl, rfl, hempty.symm, hlt, hsmall, rfl, Nat.mod_eq_of_lt ht⟩
      · exact Nat.lt_of_lt_of_le hlt (hlength.resolve_left (by simp))
      · simp only [new, hempty, hfind, Option.filter, Bool.false_eq_true, if_false, decide_eq_true_eq]
        by_cases hsmall : c < 2 ^ 31
        · rw [if_pos hsmall, if_pos hsmall]
          rfl
        · rw [if_neg hsmall, if_neg hsmall]
          rfl

/-- Cursors that partition the data do not pass the last `int`. -/
theorem Partitions.indicesFit (hpos : 0 < n) (hne : d ≠ []) {visited : ℕ → List (Element T)}
    (h : Partitions d n visited) : IndicesFit d n := by
  intro chunk hchunk hchunk_ne
  have hempty : ¬ d.empty = true := fun hempty => hchunk_ne (empty_iff.mp hempty chunk hchunk)
  have hlength : 0 < chunk.length := List.length_pos_iff.mpr hchunk_ne
  obtain ⟨c, hc, rfl⟩ := List.getElem_of_mem hchunk
  -- The cursor that visits the last element of the chunk.
  have hmem := h.once.mem_iff.mpr (mem_elements hc (Nat.sub_lt hlength Nat.one_pos))
  obtain ⟨t, ht, hvisited⟩ := List.mem_flatMap.mp hmem
  have ht := List.mem_range.mp ht
  obtain ⟨s₀, hs₀, ⟨fuel, s', hloop⟩, -⟩ := h.cursor t ht
  obtain ⟨s₁, -, hat, -, hnew⟩ := new_spec hne ht
  obtain ⟨hsmall, heq⟩ := Option.ite_none_right_eq_some.mp (hnew.symm.trans hs₀)
  obtain rfl := Option.some.inj heq
  obtain ⟨-, hlen, hall⟩ := loop_lt hpos ht hempty (hat hsmall) hloop
  have hlast : d[c].length - 1 + n < 2 ^ 31 := hall _ hvisited
  exact ⟨by omega, hlen⟩

/-- Where the `int`s suffice, the cursor at position `t` of `n` visits the elements `t`, `t + n`, … -/
theorem IndicesFit.partitions (hpos : 0 < n) (hne : d ≠ []) (hfits : IndicesFit d n) :
    Partitions d n fun t => ofThread n t d.elements := by
  have hbounds := (Decidable.em (d.empty = true)).imp_right hfits.bounds
  have hlength := hbounds.imp_right And.right
  constructor
  · have hperm := perm_flatMap_filter (fun e : Element T => e.1.2 % n) d.elements n
    rwa [List.filter_eq_self.mpr fun e _ => decide_eq_true (Nat.mod_lt _ hpos)] at hperm
  · intro t ht
    have hstart := hbounds.imp_right fun h => Nat.lt_of_lt_of_le ht h.1
    obtain ⟨s₀, hleft, hat, hsmall, hnew⟩ := new_spec hne ht
    rw [if_pos (hsmall hlength)] at hnew
    have hat := hat (hsmall hlength)
    refine ⟨s₀, hnew, hleft ▸ hat.visits hpos ht hfits hstart, fun calls s out hrun => ?_⟩
    obtain ⟨⟨i, hs⟩, -⟩ := run_invariant (Q := fun _ _ => True) (I := fun s => ∃ i, At d n t s i)
      (fun ⟨_, hI⟩ hstep => ⟨hI.step hpos ht hstep, fun _ _ => trivial⟩) ⟨t, hat⟩ hrun
    refine ⟨hs.answers hpos ht hlength, ?_⟩
    have hall := (hs.reset ht).visits hpos ht hfits hstart
    rwa [reset_left ht hs] at hall

/-- **The cursors partition the data** if and only if the `int`s suffice. -/
theorem data_partitioned (datastore : DataStore T) (hne : datastore ≠ []) (threadNum : ℕ)
    (hpos : 0 < threadNum) :
    ((∃ visited, Partitions datastore threadNum visited) ↔ IndicesFit datastore threadNum) ∧
      (IndicesFit datastore threadNum → Partitions datastore threadNum fun threadPos =>
        ofThread threadNum threadPos datastore.elements) :=
  ⟨⟨fun ⟨_, h⟩ => h.indicesFit hpos hne, fun hfits => ⟨_, hfits.partitions hpos hne⟩⟩,
    fun hfits => hfits.partitions hpos hne⟩

/-- Two threads share a data store whose first and last chunks are empty and whose second one is
shorter than a round. -/
theorem data_partitioned_twoThreads :
    Partitions [[], [7], [1, 2, 3], []] 2
      (fun threadPos => ofThread 2 threadPos (elements [[], [7], [1, 2, 3], []])) ∧
    ofThread 2 0 (elements [[], [7], [1, 2, 3], []]) = [((1, 0), 7), ((2, 0), 1), ((2, 2), 3)] ∧
    ofThread 2 1 (elements [[], [7], [1, 2, 3], []]) = [((2, 1), 2)] :=
  ⟨(data_partitioned _ (List.cons_ne_nil _ _) 2 Nat.two_pos).2 (by decide), by decide, by decide⟩

/-- The only element of a thread among `2 ^ 30` is visited and nothing is left; asked once more,
`has_next` adds `2 ^ 30` to `2 ^ 30`. -/
theorem data_partitioned_fails :
    ∃ s₀ : DataLoadBalance ℕ, new [[7]] (2 ^ 30) 0 = some s₀ ∧ ∃ s₁ out,
      run step s₀ [.hasNext, .next, .hasNext] = some (s₁, out) ∧
      out = [.more true, .visited ((0, 0), 7), .more false] ∧ s₁.hasNext = none ∧
      ¬ s₁.StaysFalse 1 := by
  refine ⟨⟨0, -2 ^ 30, 2 ^ 30, 0, [[7]], false⟩, rfl, ⟨0, 2 ^ 30, 2 ^ 30, 0, [[7]], false⟩, _, rfl, rfl,
    rfl, ?_⟩
  rintro ⟨s', hrun⟩
  cases hrun

end DataLoadBalance

end FlexPS.Datastore
