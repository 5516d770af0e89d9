import Mathlib.Data.Finset.Lattice.Lemmas
import FlexPS.Lib.Codec
import FlexPS.Lib.Machine
import FlexPS.Lib.RingBuffer

/-!
# The asynchronous reader of samples

A loading thread reads records, parses the samples in them and puts these into a ring buffer, a
batch at a time.  In binary mode a record holds any number of samples, so that a batch may begin in
one record and end in another.

## Main definitions

* `SampleFormat`, `SampleType` — how samples are written, and what they are parsed into.
* `AsyncReadParseBuffer`, `AsyncReadParseBuffer.parseLine`, `AsyncReadParseBuffer.load` — the loading
  thread in binary mode, with `LIBSVMAsyncReadBinaryParseBuffer::parse_line`.
* `AsyncReadParseBuffer.PreservesStream` — the batches are the samples of all records in order.
* `AsyncReadParseBuffer.binary_batches` — they are, in every run.
-/

namespace FlexPS.Input

open Lib

/-- What is written for a sample: a label, and the ids and values of the features. -/
structure BinSample (V : Type) where
  y : V
  v : List (ℤ × V)

/-- How `BinStream` writes and reads labels and vectors of pairs.  A vector is written with its
length, so that something is written for every vector. -/
structure SampleFormat (C V : Type) where
  label : Codec C V
  vec : Codec C (List (ℤ × V))
  vec_ne_nil : ∀ v, vec.put v ≠ []

/-- What samples offer: `Sample(num_features)`, the label `y` and `x.set`. -/
structure SampleType (S V : Type) where
  new : ℕ → S
  setY : S → V → S
  setX : S → ℤ → V → S

/-- The samples of a batch and the keys of their features. -/
structure BatchT (S : Type) where
  data : List S
  keys : Finset ℕ

/-- Where the loading thread is: it fills a batch that lacks `goal` samples, is about to insert a
batch, or has returned. -/
inductive ParseThread (S : Type) where
  | filling (tmp : BatchT S) (goal : ℕ)
  | inserting (tmp : BatchT S)
  | finished

/-- What is seen of the buffer: a batch is put in or taken out, or there is no more. -/
inductive ParseEvent (S : Type) where
  | loaded (batch : BatchT S)
  | gotBatch (tid : ℕ) (batch : BatchT S)
  | noMoreData (tid : ℕ)

/-- Who takes the next step. -/
inductive ParseStep where
  | load
  | getBatch (tid : ℕ)
  deriving DecidableEq

/-- `AsyncReadParseBuffer`: `infmt` are the records to be read, `record` is what is left of the one
that has been read last, and `batch_num_` is the number of cells of the buffer. -/
structure AsyncReadParseBuffer (C S : Type) where
  infmt : List (List C)
  record : List C
  first : Bool
  eof : Bool
  buffer : RingBuffer (BatchT S)
  batchSize : ℕ
  numFeatures : ℕ
  thread : ParseThread S

/-- An `int` as a key, which is a `uint64_t`. -/
def toKey (i : ℤ) : ℕ := (i % 2 ^ 64).toNat

namespace BatchT

variable {S V : Type}

/-- No samples. -/
def empty : BatchT S := ⟨[], ∅⟩

/-- A sample is parsed. -/
def parse (ty : SampleType S V) (numFeatures : ℕ) (batch : BatchT S) (y : V) (v : List (ℤ × V)) :
    BatchT S :=
  let thisObj := ty.setY (ty.new numFeatures) y
  let parsed := v.foldl (fun (keys, x) p => (insert (toKey (p.1 - 1)) keys, ty.setX x (p.1 - 1) p.2))
    (batch.keys, thisObj)
  ⟨batch.data ++ [parsed.2], parsed.1⟩

end BatchT

namespace AsyncReadParseBuffer

variable {C S V : Type} (fmt : SampleFormat C V) (ty : SampleType S V)

/-- `init`. -/
def init (records : List (List C)) (batchSize batchNum numFeatures : ℕ) :
    AsyncReadParseBuffer C S where
  infmt := records
  record := []
  first := true
  eof := false
  buffer := .init batchNum .empty
  batchSize := batchSize
  numFeatures := numFeatures
  thread := if batchNum = 0 then .finished else .filling .empty batchSize

/-- The loop of `parse_line`; `none` when the stream does not hold samples. -/
def parseLoop (numFeatures goal : ℕ) : ℕ → List C → BatchT S → ℕ → Option (ℕ × BatchT S × List C)
  | _, [], batch, count => some (count, batch, [])
  | 0, _ :: _, _, _ => none
  | fuel + 1, cell :: bin, batch, count => do
      let (y, bin) ← fmt.label.get (cell :: bin)
      let (v, bin) ← fmt.vec.get bin
      let batch := batch.parse ty numFeatures y v
      if count + 1 = goal then some (count + 1, batch, bin)
      else parseLoop numFeatures goal fuel bin batch (count + 1)

/-- `parse_line` of `LIBSVMAsyncReadBinaryParseBuffer`: at most `goal` samples; every sample takes
part of the stream. -/
def parseLine (numFeatures : ℕ) (bin : List C) (batch : BatchT S) (goal : ℕ) :
    Option (ℕ × BatchT S × List C) :=
  parseLoop fmt ty numFeatures goal bin.length bin batch 0

/-- A step of `main` in binary mode: fetching the first record, parsing what is left of the record
and fetching the next one, or inserting the batch.  The thread takes no step while the buffer is full
and after it has returned. -/
def load (s : AsyncReadParseBuffer C S) : Option (AsyncReadParseBuffer C S × List (ParseEvent S)) :=
  match s.thread with
  | .filling tmp goal =>
      if s.first then
        match s.infmt with
        | record :: infmt =>
            some ({ s with first := false, record, infmt, thread := .inserting tmp }, [])
        | [] => some ({ s with first := false, eof := true, thread := .inserting tmp }, [])
      else if 0 < goal then do
        let (ret, tmp, record) ← parseLine fmt ty s.numFeatures s.record tmp goal
        if goal - ret ≠ 0 then
          match s.infmt with
          | record :: infmt =>
              some ({ s with record, infmt, thread := .filling tmp (goal - ret) }, [])
          | [] => some ({ s with record, eof := true, thread := .inserting tmp }, [])
        else some ({ s with record, thread := .filling tmp 0 }, [])
      else some ({ s with thread := .inserting tmp }, [])
  | .inserting tmp =>
      if s.buffer.count = s.buffer.cells.length then none
      else
        let thread := if s.eof then .finished else .filling .empty s.batchSize
        if tmp.data.isEmpty then some ({ s with thread }, [])
        else some ({ s with buffer := s.buffer.push tmp, thread }, [.loaded tmp])
  | .finished => none

/-- `get_batch`.  The caller takes no step while the buffer is empty and `eof_` is not set. -/
def getBatch (s : AsyncReadParseBuffer C S) (tid : ℕ) :
    Option (AsyncReadParseBuffer C S × List (ParseEvent S)) :=
  if s.buffer.count = 0 then if s.eof then some (s, [.noMoreData tid]) else none
  else (s.buffer.pop .empty).map fun r => ({ s with buffer := r.2 }, [.gotBatch tid r.1])

/-- One step. -/
def step (s : AsyncReadParseBuffer C S) :
    ParseStep → Option (AsyncReadParseBuffer C S × List (ParseEvent S))
  | .load => s.load fmt ty
  | .getBatch tid => s.getBatch tid

/-! ## What is to be delivered -/

/-- The batches that have been put in. -/
def produced (out : List (ParseEvent S)) : List (BatchT S) :=
  out.filterMap fun
    | .loaded batch => some batch
    | _ => none

/-- The batches that have been handed out. -/
def handed (out : List (ParseEvent S)) : List (BatchT S) :=
  out.filterMap fun
    | .gotBatch _ batch => some batch
    | _ => none

end AsyncReadParseBuffer

/-- A sample, parsed. -/
def SampleType.ofBin {S V : Type} (ty : SampleType S V) (numFeatures : ℕ) (sample : BinSample V) :
    S :=
  sample.v.foldl (fun x p => ty.setX x (p.1 - 1) p.2) (ty.setY (ty.new numFeatures) sample.y)

/-- The keys of the features of a sample: their ids minus one. -/
def BinSample.keys {V : Type} (sample : BinSample V) : List ℕ :=
  sample.v.map fun p => toKey (p.1 - 1)

/-- How samples are written one after another. -/
def SampleFormat.write {C V : Type} (fmt : SampleFormat C V) (samples : List (BinSample V)) :
    List C :=
  samples.flatMap fun sample => fmt.label.put sample.y ++ fmt.vec.put sample.v

/-- The batch of some samples. -/
def BatchT.ofSamples {S V : Type} (ty : SampleType S V) (numFeatures : ℕ)
    (part : List (BinSample V)) : BatchT S where
  data := part.map (ty.ofBin numFeatures)
  keys := (part.flatMap BinSample.keys).toFinset

namespace AsyncReadParseBuffer

variable {C S V : Type}

/-- **The batches are the samples in order**: no batch is empty or too large, and all but the last
are full. -/
def Batches (ty : SampleType S V) (numFeatures batchSize : ℕ) (samples : List (BinSample V))
    (batches : List (BatchT S)) : Prop :=
  ∃ parts : List (List (BinSample V)), parts.flatten = samples ∧
    batches = parts.map (BatchT.ofSamples ty numFeatures) ∧
    (∀ part ∈ parts, part ≠ [] ∧ part.length ≤ batchSize) ∧
    ∀ part ∈ parts.dropLast, part.length = batchSize

/-- The loading thread waits for room in the buffer. -/
def Waits (s : AsyncReadParseBuffer C S) : Prop :=
  (∃ tmp, s.thread = .inserting tmp) ∧ s.buffer.count = s.buffer.cells.length

/-- **The sample stream is preserved**: at any time the batches are those of the first samples, when
the thread has returned they are those of all samples, and they are handed out in order.  The thread
takes at most `bound` steps, and stops only to return or to wait for room. -/
structure PreservesStream (fmt : SampleFormat C V) (ty : SampleType S V) (numFeatures batchSize : ℕ)
    (samples : List (BinSample V)) (bound : ℕ) (steps : List ParseStep) (out : List (ParseEvent S))
    (s : AsyncReadParseBuffer C S) : Prop where
  order : ∃ before after, before ++ after = samples ∧
    Batches ty numFeatures batchSize before (produced out)
  complete : s.thread = .finished → Batches ty numFeatures batchSize samples (produced out)
  handed : handed out <+: produced out
  bounded : steps.count .load ≤ bound
  stops : s.load fmt ty = none → s.thread = .finished ∨ s.Waits

end AsyncReadParseBuffer

/-! ## Parsing -/

section Parse

variable {C S V : Type} {fmt : SampleFormat C V} {ty : SampleType S V} {numFeatures : ℕ}

/-- Parsing a sample adds it to the batch. -/
theorem BatchT.parse_ofSamples (part : List (BinSample V)) (sample : BinSample V) :
    (BatchT.ofSamples ty numFeatures part).parse ty numFeatures sample.y sample.v =
      .ofSamples ty numFeatures (part ++ [sample]) := by
  have hloop : ∀ (v : List (ℤ × V)) (keys : Finset ℕ) (x : S),
      v.foldl (fun (keys, x) p => (insert (toKey (p.1 - 1)) keys, ty.setX x (p.1 - 1) p.2))
        (keys, x) =
      (keys ∪ (v.map fun p => toKey (p.1 - 1)).toFinset,
        v.foldl (fun x p => ty.setX x (p.1 - 1) p.2) x) := by
    intro v
    induction v with
    | nil =>
        intro keys x
        simp
    | cons p v ih =>
        intro keys x
        rw [List.foldl_cons, List.foldl_cons, ih]
        simp [Finset.insert_union, Finset.union_insert]
  simp only [BatchT.parse, hloop, BatchT.ofSamples, List.map_append, List.map_singleton,
    List.flatMap_append, List.flatMap_singleton, List.toFinset_append]
  rfl

@[simp] theorem SampleFormat.write_nil : fmt.write [] = [] := rfl

theorem SampleFormat.write_cons (sample : BinSample V) (samples : List (BinSample V)) :
    fmt.write (sample :: samples) =
      fmt.label.put sample.y ++ (fmt.vec.put sample.v ++ fmt.write samples) := by
  rw [write, List.flatMap_cons, List.append_assoc]
  rfl

/-- Every sample takes part of the stream. -/
theorem SampleFormat.length_write_cons (sample : BinSample V) (samples : List (BinSample V)) :
    (fmt.write samples).length < (fmt.write (sample :: samples)).length := by
  have hpos := List.length_pos_iff.mpr (fmt.vec_ne_nil sample.v)
  rw [write_cons, List.length_append, List.length_append]
  omega

theorem SampleFormat.length_write_drop (samples : List (BinSample V)) {n : ℕ}
    (hn : n ≤ samples.length) :
    (fmt.write (samples.drop n)).length + n ≤ (fmt.write samples).length := by
  induction n generalizing samples with
  | zero => exact le_rfl
  | succ n ih =>
      cases samples with
      | nil => exact absurd hn (Nat.not_succ_le_zero n)
      | cons sample samples =>
          have hrest := ih samples (Nat.le_of_succ_le_succ hn)
          have hlt := fmt.length_write_cons sample samples
          rw [List.drop_succ_cons]
          omega

namespace AsyncReadParseBuffer

/-- The loop parses samples until there are `goal` of them, or the stream is empty. -/
theorem parseLoop_spec {goal count fuel : ℕ} (hcount : count < goal) (samples : List (BinSample V))
    (hfuel : (fmt.write samples).length ≤ fuel) (part : List (BinSample V)) :
    parseLoop fmt ty numFeatures goal fuel (fmt.write samples) (.ofSamples ty numFeatures part)
        count =
      some (count + (samples.take (goal - count)).length,
        .ofSamples ty numFeatures (part ++ samples.take (goal - count)),
        fmt.write (samples.drop (goal - count))) := by
  induction samples generalizing fuel count part with
  | nil =>
      rw [List.take_nil, List.drop_nil, List.append_nil]
      cases fuel <;> rfl
  | cons sample samples ih =>
      have hlt := fmt.length_write_cons sample samples
      obtain ⟨cell, bin, hbin⟩ := List.exists_cons_of_length_pos (Nat.zero_lt_of_lt hlt)
      obtain ⟨fuel, rfl⟩ := Nat.exists_eq_succ_of_ne_zero (n := fuel) (by omega)
      have hy : fmt.label.get (cell :: bin) =
          some (sample.y, fmt.vec.put sample.v ++ fmt.write samples) := by
        rw [← hbin, SampleFormat.write_cons]
        exact fmt.label.get_put _ _
      have hv := fmt.vec.get_put sample.v (fmt.write samples)
      obtain ⟨left, hleft⟩ : ∃ left, goal - count = left + 1 := ⟨goal - count - 1, by omega⟩
      rw [hbin, parseLoop, hy]
      simp only [Option.bind_eq_bind, Option.bind_some, hv, BatchT.parse_ofSamples]
      rw [hleft, List.take_succ_cons, List.drop_succ_cons]
      split
      · next hgoal =>
          obtain rfl : left = 0 := by omega
          rfl
      · next hmore =>
          have hleft' : goal - (count + 1) = left := by omega
          rw [ih (by omega) (by omega), hleft', List.append_assoc, List.length_cons]
          simp only [List.singleton_append]
          congr 2
          omega

/-- **`parse_line`** takes at most `goal` samples off the record. -/
theorem parseLine_spec {goal : ℕ} (hgoal : 0 < goal) (samples part : List (BinSample V)) :
    parseLine fmt ty numFeatures (fmt.write samples) (.ofSamples ty numFeatures part) goal =
      some ((samples.take goal).length, .ofSamples ty numFeatures (part ++ samples.take goal),
        fmt.write (samples.drop goal)) := by
  rw [parseLine, parseLoop_spec hgoal samples le_rfl, Nat.sub_zero, Nat.zero_add]

/-! ## The loading thread -/

/-- What the thread is doing: `parts` have been put in, `cur` is in the batch, `rest` is left of the
record, and `recs` are to be read. -/
def Phase (ty : SampleType S V) (numFeatures batchSize : ℕ) (parts : List (List (BinSample V)))
    (cur rest : List (BinSample V)) (recs : List (List (BinSample V)))
    (s : AsyncReadParseBuffer C S) : Prop :=
  match s.thread with
  | .filling tmp goal => tmp = .ofSamples ty numFeatures cur ∧ cur.length + goal = batchSize ∧
      s.eof = false ∧ (s.first = true → cur = [] ∧ rest = []) ∧
      ∀ part ∈ parts, part.length = batchSize
  | .inserting tmp => tmp = .ofSamples ty numFeatures cur ∧ s.first = false ∧
      (if s.eof then rest = [] ∧ recs = [] ∧ cur.length ≤ batchSize
        else cur = [] ∨ cur.length = batchSize) ∧
      ∀ part ∈ parts, part.length = batchSize
  | .finished => cur = [] ∧ rest = [] ∧ recs = []

/-- How far the thread is in the stream. -/
structure Position (fmt : SampleFormat C V) (ty : SampleType S V) (numFeatures batchSize : ℕ)
    (samples : List (BinSample V)) (parts : List (List (BinSample V))) (cur rest : List (BinSample V))
    (recs : List (List (BinSample V))) (s : AsyncReadParseBuffer C S) : Prop where
  stream : parts.flatten ++ (cur ++ (rest ++ recs.flatten)) = samples
  record : s.record = fmt.write rest
  infmt : s.infmt = recs.map fmt.write
  sized : ∀ part ∈ parts, part ≠ [] ∧ part.length ≤ batchSize
  full : ∀ part ∈ parts.dropLast, part.length = batchSize
  phase : s.Phase ty numFeatures batchSize parts cur rest recs

/-- The invariant of runs. -/
structure Inv (fmt : SampleFormat C V) (ty : SampleType S V) (numFeatures batchSize : ℕ)
    (samples : List (BinSample V)) (out : List (ParseEvent S)) (s : AsyncReadParseBuffer C S) :
    Prop where
  size : s.batchSize = batchSize
  features : s.numFeatures = numFeatures
  queue : ∃ items, s.buffer.Holds items ∧ handed out ++ items = produced out
  position : ∃ parts cur rest recs, produced out = parts.map (.ofSamples ty numFeatures) ∧
    Position fmt ty numFeatures batchSize samples parts cur rest recs s

/-- What is still to be read: the records, and three steps for every cell in them. -/
def ahead (s : AsyncReadParseBuffer C S) : ℕ :=
  s.infmt.length + 3 * (s.record.length + (s.infmt.map List.length).sum) + 2

/-- The steps that the thread may still take. -/
def work (s : AsyncReadParseBuffer C S) : ℕ :=
  match s.thread with
  | .filling _ goal => if s.first then s.ahead + 2 else if goal = 0 then s.ahead + 2 else s.ahead
  | .inserting _ => if s.eof then 1 else s.ahead + 1
  | .finished => 0

variable {batchSize : ℕ} {samples : List (BinSample V)} {out o : List (ParseEvent S)}
  {s s' : AsyncReadParseBuffer C S} {tmp : BatchT S} {goal tid : ℕ}

theorem produced_append (out o : List (ParseEvent S)) :
    produced (out ++ o) = produced out ++ produced o := List.filterMap_append

theorem handed_append (out o : List (ParseEvent S)) :
    handed (out ++ o) = handed out ++ handed o := List.filterMap_append

/-- A step that puts nothing in. -/
theorem Inv.move (h : Inv fmt ty numFeatures batchSize samples out s)
    (hsize : s'.batchSize = s.batchSize) (hfeatures : s'.numFeatures = s.numFeatures)
    (hbuffer : s'.buffer = s.buffer) {parts : List (List (BinSample V))}
    (cur rest : List (BinSample V)) (recs : List (List (BinSample V)))
    (hproduced : produced out = parts.map (.ofSamples ty numFeatures))
    (hposition : Position fmt ty numFeatures batchSize samples parts cur rest recs s') :
    Inv fmt ty numFeatures batchSize samples (out ++ []) s' := by
  rw [List.append_nil]
  refine ⟨hsize.trans h.size, hfeatures.trans h.features, ?_, ?_⟩
  · rw [hbuffer]
    exact h.queue
  · exact ⟨parts, cur, rest, recs, hproduced, hposition⟩

/-- **The first record** is fetched, and nothing is put in. -/
theorem Inv.load_first (h : Inv fmt ty numFeatures batchSize samples out s)
    (hthread : s.thread = .filling tmp goal) (hfirst : s.first = true) :
    ∃ s' o, s.load fmt ty = some (s', o) ∧
      Inv fmt ty numFeatures batchSize samples (out ++ o) s' ∧ s'.work < s.work := by
  obtain ⟨parts, cur, rest, recs, hproduced, hpos⟩ := h.position
  obtain ⟨hstream, hrecord, hinfmt, hsized, hfull, hphase⟩ := hpos
  rw [Phase, hthread] at hphase
  obtain ⟨htmp, hgoal, heof, hnone, hparts⟩ := hphase
  obtain ⟨rfl, rfl⟩ := hnone hfirst
  have hwork : s.work = s.ahead + 2 := by
    rw [work, hthread]
    simp only [hfirst, if_true]
  rw [load, hthread]
  simp only [hfirst, if_true]
  cases recs with
  | nil =>
      rw [hinfmt]
      refine ⟨_, _, rfl, h.move rfl rfl rfl [] [] [] hproduced
        ⟨hstream, hrecord, rfl, hsized, hfull, htmp, rfl, ⟨rfl, rfl, Nat.zero_le _⟩, hparts⟩, ?_⟩
      rw [hwork]
      exact Nat.lt_of_lt_of_le (Nat.lt_succ_self 1) (Nat.le_add_left 2 _)
  | cons record recs =>
      rw [hinfmt]
      refine ⟨_, _, rfl, h.move rfl rfl rfl [] record recs hproduced
        ⟨?_, rfl, rfl, hsized, hfull, htmp, rfl, ?_, hparts⟩, ?_⟩
      · rw [← hstream]
        rfl
      · simp [heof]
      · rw [hwork]
        simp only [work, ahead, heof, hinfmt, Bool.false_eq_true, if_false, List.map_cons,
          List.length_cons, List.sum_cons]
        omega

/-- **A part of the record is parsed**, and the next one is fetched if it was not enough. -/
theorem Inv.load_parse (h : Inv fmt ty numFeatures batchSize samples out s)
    (hthread : s.thread = .filling tmp goal) (hfirst : s.first = false) (hgoal : 0 < goal) :
    ∃ s' o, s.load fmt ty = some (s', o) ∧
      Inv fmt ty numFeatures batchSize samples (out ++ o) s' ∧ s'.work < s.work := by
  obtain ⟨parts, cur, rest, recs, hproduced, hpos⟩ := h.position
  obtain ⟨hstream, hrecord, hinfmt, hsized, hfull, hphase⟩ := hpos
  rw [Phase, hthread] at hphase
  obtain ⟨rfl, hlength, heof, -, hparts⟩ := hphase
  have hwork : s.work = s.ahead := by
    rw [work, hthread]
    simp only [hfirst, Bool.false_eq_true, if_false, hgoal.ne']
  have hparse : parseLine fmt ty s.numFeatures s.record (.ofSamples ty numFeatures cur) goal =
      some ((rest.take goal).length, .ofSamples ty numFeatures (cur ++ rest.take goal),
        fmt.write (rest.drop goal)) := by
    rw [h.features, hrecord]
    exact parseLine_spec hgoal rest cur
  rw [load, hthread]
  simp only [hfirst, Bool.false_eq_true, if_false, hgoal, if_true, hparse, Option.bind_eq_bind,
    Option.bind_some]
  rw [hwork]
  by_cases hle : goal ≤ rest.length
  · -- The record has the samples that the batch lacks.
    have htake : (rest.take goal).length = goal := by
      rw [List.length_take]
      omega
    have hdrop := fmt.length_write_drop rest hle
    simp only [htake, Nat.sub_self, ne_eq, not_true_eq_false, if_false]
    refine ⟨_, _, rfl, h.move rfl rfl rfl (cur ++ rest.take goal) (rest.drop goal) recs hproduced
      ⟨?_, rfl, hinfmt, hsized, hfull, rfl, ?_, heof, ?_, hparts⟩, ?_⟩
    · rw [← hstream, List.append_assoc cur, ← List.append_assoc (rest.take goal),
        List.take_append_drop]
    · rw [List.length_append, htake, Nat.add_zero]
      exact hlength
    · nofun
    · simp only [work, ahead, hrecord, Bool.false_eq_true, if_false, if_true]
      omega
  · -- The record is used up.
    have hlt : rest.length < goal := Nat.lt_of_not_le hle
    have htake : rest.take goal = rest := List.take_of_length_le hlt.le
    have hdrop : rest.drop goal = [] := List.drop_of_length_le hlt.le
    have hlack : goal - rest.length ≠ 0 := by omega
    simp only [htake, hdrop, hlack, ne_eq, not_false_eq_true, if_true]
    cases recs with
    | nil =>
        rw [hinfmt]
        refine ⟨_, _, rfl, h.move rfl rfl rfl (cur ++ rest) [] [] hproduced
          ⟨?_, rfl, rfl, hsized, hfull, rfl, rfl, ⟨rfl, rfl, ?_⟩, hparts⟩, ?_⟩
        · rw [← hstream, List.append_assoc]
          rfl
        · rw [List.length_append]
          omega
        · exact Nat.lt_of_lt_of_le (Nat.lt_succ_self 1) (Nat.le_add_left 2 _)
    | cons record recs =>
        rw [hinfmt]
        refine ⟨_, _, rfl, h.move rfl rfl rfl (cur ++ rest) record recs hproduced
          ⟨?_, rfl, rfl, hsized, hfull, rfl, ?_, heof, ?_, hparts⟩, ?_⟩
        · rw [← hstream, List.append_assoc]
          rfl
        · rw [List.length_append]
          omega
        · nofun
        · simp only [work, ahead, hinfmt, hlack, Bool.false_eq_true, if_false,
            List.map_cons, List.length_cons, List.sum_cons]
          omega

/-- The batch is full. -/
theorem Inv.load_full (h : Inv fmt ty numFeatures batchSize samples out s)
    (hthread : s.thread = .filling tmp 0) (hfirst : s.first = false) :
    ∃ s' o, s.load fmt ty = some (s', o) ∧
      Inv fmt ty numFeatures batchSize samples (out ++ o) s' ∧ s'.work < s.work := by
  obtain ⟨parts, cur, rest, recs, hproduced, hpos⟩ := h.position
  obtain ⟨hstream, hrecord, hinfmt, hsized, hfull, hphase⟩ := hpos
  rw [Phase, hthread] at hphase
  obtain ⟨htmp, hlength, heof, -, hparts⟩ := hphase
  rw [load, hthread]
  simp only [hfirst, Bool.false_eq_true, if_false, Nat.lt_irrefl]
  refine ⟨_, _, rfl, h.move rfl rfl rfl cur rest recs hproduced
    ⟨hstream, hrecord, hinfmt, hsized, hfull, htmp, rfl, ?_, hparts⟩, ?_⟩
  · simp only [heof, Bool.false_eq_true, if_false]
    exact .inr hlength
  · simp only [work, hthread, hfirst, heof, Bool.false_eq_true, if_false, if_true]
    exact Nat.lt_succ_self _

/-- **A batch is put in**, unless it is empty. -/
theorem Inv.load_insert (hpos : 0 < batchSize)
    (h : Inv fmt ty numFeatures batchSize samples out s) (hthread : s.thread = .inserting tmp)
    (hroom : s.buffer.count ≠ s.buffer.cells.length) :
    ∃ s' o, s.load fmt ty = some (s', o) ∧
      Inv fmt ty numFeatures batchSize samples (out ++ o) s' ∧ s'.work < s.work := by
  obtain ⟨parts, cur, rest, recs, hproduced, hposition⟩ := h.position
  obtain ⟨hstream, hrecord, hinfmt, hsized, hfull, hphase⟩ := hposition
  rw [Phase, hthread] at hphase
  obtain ⟨rfl, hfirst, hcur, hparts⟩ := hphase
  set thread : ParseThread S := if s.eof then .finished else .filling .empty s.batchSize with hnext
  -- Afterwards the batch is empty, and the thread has returned or fills the next one.
  have hwork : ∀ buffer, work { s with buffer := buffer, thread := thread } < s.work := by
    intro buffer
    rw [hnext]
    cases heof : s.eof with
    | true => simp [work, hthread, heof]
    | false =>
        have hne : s.batchSize ≠ 0 := by
          rw [h.size]
          exact hpos.ne'
        simp [work, ahead, hthread, heof, hfirst, hne]
  have hphase : ∀ buffer parts, (s.eof = false → ∀ part ∈ parts, part.length = batchSize) →
      Phase ty numFeatures batchSize parts [] rest recs
        { s with buffer := buffer, thread := thread } := by
    intro buffer parts hparts
    rw [hnext]
    cases heof : s.eof with
    | true =>
        rw [heof, if_pos rfl] at hcur
        exact ⟨rfl, hcur.1, hcur.2.1⟩
    | false =>
        refine ⟨rfl, ?_, rfl, ?_, hparts heof⟩
        · rw [List.length_nil, Nat.zero_add]
          exact h.size
        · rw [hfirst]
          nofun
  rw [load, hthread]
  simp only [if_neg hroom]
  cases cur with
  | nil =>
      refine ⟨_, _, rfl, h.move rfl rfl rfl [] rest recs hproduced
        ⟨hstream, hrecord, hinfmt, hsized, hfull, hphase s.buffer parts fun _ => hparts⟩, ?_⟩
      exact hwork s.buffer
  | cons sample cur =>
      obtain ⟨items, hholds, hhanded⟩ := h.queue
      have hfits := lt_of_le_of_ne hholds.fits (hholds.count ▸ hroom)
      set part := sample :: cur with hpart
      have hlength : part.length ≤ batchSize ∧ (s.eof = false → part.length = batchSize) := by
        cases heof : s.eof with
        | true =>
            rw [heof, if_pos rfl] at hcur
            exact ⟨hcur.2.2, nofun⟩
        | false =>
            rw [heof, if_neg Bool.false_ne_true] at hcur
            have hfull := hcur.resolve_left (List.cons_ne_nil _ _)
            exact ⟨hfull.le, fun _ => hfull⟩
      refine ⟨_, [.loaded (.ofSamples ty numFeatures part)], rfl, ⟨h.size, h.features, ?_, ?_⟩, ?_⟩
      · refine ⟨items ++ [.ofSamples ty numFeatures part], hholds.push hfits _, ?_⟩
        rw [produced_append, handed_append, ← hhanded]
        simp [handed, produced]
      · refine ⟨parts ++ [part], [], rest, recs, ?_, ?_, hrecord, hinfmt, ?_, ?_, ?_⟩
        · rw [produced_append, hproduced, List.map_append]
          rfl
        · rw [← hstream]
          simp
        · intro part' hmem
          rcases List.mem_append.mp hmem with hmem | hmem
          · exact hsized part' hmem
          · rw [List.mem_singleton.mp hmem]
            exact ⟨List.cons_ne_nil _ _, hlength.1⟩
        · rw [List.dropLast_concat]
          exact hparts
        · refine hphase _ _ fun heof part' hmem => ?_
          rcases List.mem_append.mp hmem with hmem | hmem
          · exact hparts part' hmem
          · rw [List.mem_singleton.mp hmem]
            exact hlength.2 heof
      · exact hwork _

/-- **A step of the loading thread**: it has work to do, has returned or waits for room. -/
theorem Inv.load_cases (hpos : 0 < batchSize)
    (h : Inv fmt ty numFeatures batchSize samples out s) :
    (s.load fmt ty = none ∧ (s.thread = .finished ∨ s.Waits)) ∨
    ∃ s' o, s.load fmt ty = some (s', o) ∧
      Inv fmt ty numFeatures batchSize samples (out ++ o) s' ∧ s'.work < s.work := by
  cases hthread : s.thread with
  | filling tmp goal =>
      refine .inr ?_
      cases hfirst : s.first with
      | true => exact h.load_first hthread hfirst
      | false =>
          rcases Nat.eq_zero_or_pos goal with rfl | hgoal
          · exact h.load_full hthread hfirst
          · exact h.load_parse hthread hfirst hgoal
  | inserting tmp =>
      by_cases hroom : s.buffer.count = s.buffer.cells.length
      · refine .inl ⟨?_, .inr ⟨⟨tmp, hthread⟩, hroom⟩⟩
        rw [load, hthread]
        simp only [if_pos hroom]
      · exact .inr (h.load_insert hpos hthread hroom)
  | finished =>
      refine .inl ⟨?_, .inl rfl⟩
      rw [load, hthread]

/-! ## Runs -/

/-- Taking a batch out leaves the loading thread where it is. -/
theorem Inv.getBatch (h : Inv fmt ty numFeatures batchSize samples out s)
    (hstep : s.getBatch tid = some (s', o)) :
    Inv fmt ty numFeatures batchSize samples (out ++ o) s' ∧ s'.work = s.work := by
  obtain ⟨items, hholds, hhanded⟩ := h.queue
  obtain ⟨parts, cur, rest, recs, hproduced, hposition⟩ := h.position
  unfold AsyncReadParseBuffer.getBatch at hstep
  split at hstep
  · split at hstep
    · obtain ⟨rfl, rfl⟩ := Prod.mk.inj (Option.some.inj hstep)
      have hnone : produced (out ++ [.noMoreData tid]) = produced out ∧
          handed (out ++ [.noMoreData tid]) = handed out := by
        rw [produced_append, handed_append]
        exact ⟨List.append_nil _, List.append_nil _⟩
      refine ⟨⟨h.size, h.features, ⟨items, hholds, ?_⟩, parts, cur, rest, recs, ?_, hposition⟩, rfl⟩
      · rw [hnone.1, hnone.2, hhanded]
      · rw [hnone.1, hproduced]
    · cases hstep
  · next hcount =>
      rw [hholds.count] at hcount
      obtain ⟨batch, items, rfl⟩ := List.exists_cons_of_ne_nil
        (List.ne_nil_of_length_pos (Nat.pos_of_ne_zero hcount))
      obtain ⟨buffer, hpop, -, hholds'⟩ := hholds.pop .empty
      rw [hpop] at hstep
      obtain ⟨rfl, rfl⟩ := Prod.mk.inj (Option.some.inj hstep)
      have hone : produced (out ++ [.gotBatch tid batch]) = produced out ∧
          handed (out ++ [.gotBatch tid batch]) = handed out ++ [batch] := by
        rw [produced_append, handed_append]
        exact ⟨List.append_nil _, rfl⟩
      refine ⟨⟨h.size, h.features, ⟨items, hholds', ?_⟩, parts, cur, rest, recs, ?_, ?_⟩, rfl⟩
      · rw [hone.1, hone.2, ← hhanded, List.append_assoc]
        rfl
      · rw [hone.1, hproduced]
      · exact ⟨hposition.stream, hposition.record, hposition.infmt, hposition.sized, hposition.full,
          hposition.phase⟩

theorem inv_init (records : List (List (BinSample V))) {batchNum : ℕ} (hnum : 0 < batchNum) :
    Inv fmt ty numFeatures batchSize records.flatten []
      (init (records.map fmt.write) batchSize batchNum numFeatures : AsyncReadParseBuffer C S) := by
  refine ⟨rfl, rfl, ⟨[], RingBuffer.holds_init hnum _, rfl⟩, [], [], [], records, rfl, ?_⟩
  refine ⟨rfl, rfl, rfl, fun _ => nofun, fun _ => nofun, ?_⟩
  have hthread : (init (records.map fmt.write) batchSize batchNum numFeatures :
      AsyncReadParseBuffer C S).thread = .filling .empty batchSize := if_neg hnum.ne'
  rw [Phase, hthread]
  exact ⟨rfl, Nat.zero_add _, rfl, fun _ => ⟨rfl, rfl⟩, fun _ => nofun⟩

/-- Every step of the thread is work that is done. -/
theorem run_inv (hpos : 0 < batchSize) {s₀ : AsyncReadParseBuffer C S}
    (h : Inv fmt ty numFeatures batchSize samples [] s₀) {steps : List ParseStep}
    (hrun : run (step fmt ty) s₀ steps = some (s, out)) :
    Inv fmt ty numFeatures batchSize samples out s ∧ steps.count .load + s.work ≤ s₀.work := by
  have hstart : Inv fmt ty numFeatures batchSize samples [] s₀ ∧
      ([] : List ParseStep).count .load + s₀.work ≤ s₀.work := ⟨h, (Nat.zero_add _).le⟩
  rw [← List.nil_append out]
  refine run_loop (I := fun done out s =>
    Inv fmt ty numFeatures batchSize samples out s ∧ done.count .load + s.work ≤ s₀.work)
    (fun {done i rest out s s' o} _ hI hstep => ?_) hstart hrun
  obtain ⟨hinv, hle⟩ := hI
  rw [List.count_append]
  cases i with
  | load =>
      rcases hinv.load_cases hpos with ⟨hnone, -⟩ | ⟨s₁, o₁, hload, hinv', hlt⟩
      · cases hnone.symm.trans hstep
      · obtain ⟨rfl, rfl⟩ := Prod.mk.inj (Option.some.inj (hload.symm.trans hstep))
        refine ⟨hinv', ?_⟩
        rw [List.count_singleton_self]
        omega
  | getBatch tid =>
      obtain ⟨hinv', hwork⟩ := hinv.getBatch hstep
      refine ⟨hinv', ?_⟩
      rw [hwork, List.count_singleton, if_neg (by simp)]
      exact hle

/-- **The binary batches** preserve the sample stream, whatever the records hold, and the loading
thread returns when they end. -/
theorem binary_batches (fmt : SampleFormat C V) (ty : SampleType S V)
    (records : List (List (BinSample V))) (batchSize batchNum numFeatures : ℕ)
    (hpos : 0 < batchSize) (hnum : 0 < batchNum) :
    ∃ bound, ∀ (steps : List ParseStep) (out : List (ParseEvent S)) (s : AsyncReadParseBuffer C S),
      run (step fmt ty) (init (records.map fmt.write) batchSize batchNum numFeatures) steps =
        some (s, out) →
      PreservesStream fmt ty numFeatures batchSize records.flatten bound steps out s := by
  refine ⟨(init (records.map fmt.write) batchSize batchNum numFeatures :
    AsyncReadParseBuffer C S).work, fun steps out s hrun => ?_⟩
  obtain ⟨hinv, hle⟩ := run_inv hpos (inv_init records hnum) hrun
  obtain ⟨items, -, hhanded⟩ := hinv.queue
  obtain ⟨parts, cur, rest, recs, hproduced, hposition⟩ := hinv.position
  refine ⟨⟨parts.flatten, _, hposition.stream, parts, rfl, hproduced, hposition.sized,
    hposition.full⟩, fun hfinished => ?_, ⟨items, hhanded⟩, (Nat.le_add_right _ _).trans hle,
    fun hnone => ?_⟩
  · have hphase := hposition.phase
    rw [Phase, hfinished] at hphase
    obtain ⟨rfl, rfl, rfl⟩ := hphase
    have hall := hposition.stream
    rw [List.flatten_nil, List.append_nil, List.append_nil, List.append_nil] at hall
    exact ⟨parts, hall, hproduced, hposition.sized, hposition.full⟩
  · rcases hinv.load_cases hpos with ⟨-, hstops⟩ | ⟨s', o, hload, -⟩
    · exact hstops
    · cases hnone.symm.trans hload

end AsyncReadParseBuffer

end Parse

/-! ## A run -/

/-- Numbers as cells. -/
def wordCodec : Codec ℤ ℕ where
  put n := [(n : ℤ)]
  get
    | [] => none
    | cell :: bin => some (cell.toNat, bin)
  get_put n rest := by simp

/-- An id and a value take two cells. -/
def pairCodec : Codec ℤ (ℤ × ℤ) where
  put p := [p.1, p.2]
  get
    | id :: value :: bin => some ((id, value), bin)
    | _ => none
  get_put _ _ := rfl

/-- Samples as cells: the label, the number of features, and the features. -/
def wordFormat : SampleFormat ℤ ℤ where
  label :=
    { put := fun y => [y]
      get := fun
        | [] => none
        | cell :: bin => some (cell, bin)
      get_put := fun _ _ => rfl }
  vec := .vec wordCodec pairCodec
  vec_ne_nil _ := List.cons_ne_nil _ _

/-- Samples that keep what they are given. -/
def plainSample : SampleType (List ℤ) ℤ where
  new _ := []
  setY x y := y :: x
  setX x id value := x ++ [id, value]

/-- Three records: one sample, none, and two samples. -/
def threeRecords : List (List (BinSample ℤ)) :=
  [[⟨1, [(1, 5)]⟩], [], [⟨2, [(1, 6), (3, 7)]⟩, ⟨3, []⟩]]

namespace AsyncReadParseBuffer

/-- The loading thread reads all of them, in batches of two. -/
theorem binary_batches_threeRecords : ∃ (out : List (ParseEvent (List ℤ)))
    (s : AsyncReadParseBuffer ℤ (List ℤ)), s.thread = .finished ∧
      (produced out).map BatchT.data = [[[1, 0, 5], [2, 0, 6, 2, 7]], [[3]]] ∧
      Batches plainSample 4 2 threeRecords.flatten (produced out) := by
  have hrun : (run (step wordFormat plainSample) (init (threeRecords.map wordFormat.write) 2 2 4)
      (List.replicate 9 .load)).map (fun r => (r.1.thread, (produced r.2).map BatchT.data)) =
      some (.finished, [[[1, 0, 5], [2, 0, 6, 2, 7]], [[3]]]) := rfl
  obtain ⟨⟨s, out⟩, hrun, heq⟩ := Option.map_eq_some_iff.mp hrun
  obtain ⟨hthread, hdata⟩ := Prod.mk.inj heq
  obtain ⟨bound, hall⟩ := binary_batches wordFormat plainSample threeRecords 2 2 4 (by decide)
    (by decide)
  exact ⟨out, s, hthread, hdata, (hall _ out s hrun).complete hthread⟩

end AsyncReadParseBuffer

end FlexPS.Input
