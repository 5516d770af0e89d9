import FlexPS.Lib.Cut
import FlexPS.Lib.Machine
import FlexPS.Lib.RingBuffer
import Mathlib.Logic.Function.Basic

/-!
# The asynchronous reader

A loading thread reads lines and puts them into a ring buffer, a batch at a time; the threads of a
task take the batches out.  At the end of the file the loading thread sets `eof_` first, and then
inserts the lines it has: in between, a thread that finds the buffer empty takes the file to be over.

## Main definitions

* `AsyncReadBuffer`, `AsyncReadBuffer.load`, `AsyncReadBuffer.getBatch` — the loading thread and
  `get_batch`.
* `AsyncReadBuffer.step` — one step of the loading thread or of a consumer.
* `AsyncReadBuffer.Delivers` — every line is handed out before the file is taken to be over.
* `AsyncReadBuffer.delivers_iff` — it is if and only if there is no shorter batch at the end.
-/

namespace FlexPS.Input

open Lib

/-- The lines that are handed out together. -/
abbrev Batch := List String

/-- Where the loading thread is: it fills a batch, has found no more lines, is about to insert the
batch, or has returned. -/
inductive Loader where
  | filling (tmp : Batch)
  | ended (tmp : Batch)
  | inserting (tmp : Batch)
  | finished

/-- The lines that have been read and not inserted. -/
def Loader.tmp : Loader → Batch
  | filling tmp => tmp
  | ended tmp => tmp
  | inserting tmp => tmp
  | finished => []

/-- `AsyncReadBuffer` and the threads that use it: `infmt` are the lines to be read, `batch_num_` is
the number of cells of the buffer, and `asking` are the threads that have found `eof_` set in
`is_empty`, and not asked for the number of batches yet. -/
structure AsyncReadBuffer where
  infmt : List String
  eof : Bool
  buffer : RingBuffer Batch
  batchSize : ℕ
  loader : Loader
  asking : ℕ → Bool

/-- What is seen of the buffer. -/
inductive ReadEvent where
  | gotBatch (tid : ℕ) (batch : Batch)
  | noMoreData (tid : ℕ)
  | isEmpty (tid : ℕ) (answer : Bool)
  deriving DecidableEq

/-- Who takes the next step. -/
inductive ReadStep where
  | load
  | getBatch (tid : ℕ)
  | endOfFile (tid : ℕ)
  | ask (tid : ℕ)
  deriving DecidableEq

namespace AsyncReadBuffer

/-- `init`. -/
def init (lines : List String) (batchSize batchNum : ℕ) : AsyncReadBuffer where
  infmt := lines
  eof := false
  buffer := .init batchNum []
  batchSize := batchSize
  loader := .filling []
  asking _ := false

/-- A step of `main`: reading a record, setting `eof_`, or inserting the batch.  The thread waits
while the buffer is full. -/
def load (s : AsyncReadBuffer) : AsyncReadBuffer :=
  match s.loader with
  | .filling tmp =>
      if tmp.length < s.batchSize then
        match s.infmt with
        | record :: infmt => { s with infmt := infmt, loader := .filling (tmp ++ [record]) }
        | [] => { s with loader := .ended tmp }
      else { s with loader := .inserting tmp }
  | .ended tmp => { s with eof := true, loader := .inserting tmp }
  | .inserting tmp =>
      if s.buffer.count = s.buffer.cells.length then s
      else
        { s with
          buffer := if tmp = [] then s.buffer else s.buffer.push tmp
          loader := if s.eof then .finished else .filling [] }
  | .finished => s

/-- `get_batch`, as it is called by `prepare_next_batch`.  The thread waits while the buffer is empty
and `eof_` is not set. -/
def getBatch (s : AsyncReadBuffer) (tid : ℕ) : Option (AsyncReadBuffer × List ReadEvent) :=
  if s.buffer.count = 0 then
    if s.eof then some (s, [.noMoreData tid]) else some (s, [])
  else
    (s.buffer.pop []).map fun r => ({ s with buffer := r.2 }, [.gotBatch tid r.1])

/-- `end_of_file`, the first half of `is_empty`. -/
def endOfFile (s : AsyncReadBuffer) (tid : ℕ) : AsyncReadBuffer × List ReadEvent :=
  if s.eof then ({ s with asking := Function.update s.asking tid true }, [])
  else (s, [.isEmpty tid false])

/-- `ask`, the second half of `is_empty`. -/
def ask (s : AsyncReadBuffer) (tid : ℕ) : Option (AsyncReadBuffer × List ReadEvent) :=
  if s.asking tid then
    some ({ s with asking := Function.update s.asking tid false },
      [.isEmpty tid (s.buffer.count = 0)])
  else none

/-- One step. -/
def step (s : AsyncReadBuffer) : ReadStep → Option (AsyncReadBuffer × List ReadEvent)
  | .load => some (s.load, [])
  | .getBatch tid => s.getBatch tid
  | .endOfFile tid => some (s.endOfFile tid)
  | .ask tid => s.ask tid

/-! ## What is to be delivered -/

/-- The batches that have been handed out. -/
def handed (out : List ReadEvent) : List Batch :=
  out.filterMap fun
    | .gotBatch _ batch => some batch
    | _ => none

/-- The lines that have not been inserted. -/
def rest (s : AsyncReadBuffer) : List String := s.loader.tmp ++ s.infmt

/-- The caller takes the file to be over. -/
def SaysEmpty : ReadEvent → Prop
  | .noMoreData _ => True
  | .isEmpty _ answer => answer = true
  | .gotBatch _ _ => False

/-- **Every line is delivered**: the batches are handed out in order, none is lost or handed out
twice, and they have all been handed out when the file is taken to be over. -/
structure Delivers (lines : List String) (batchSize : ℕ) (out : List ReadEvent)
    (s : AsyncReadBuffer) : Prop where
  order : handed out <+: groups batchSize lines
  account : handed out ++ s.buffer.toList ++ groups batchSize s.rest =
    groups batchSize lines
  all : Throughout (fun before e => SaysEmpty e → handed before = groups batchSize lines) out

/-- Nobody looks at an empty buffer while the last batch is still to be inserted. -/
def Patient (s : AsyncReadBuffer) : ReadStep → Prop
  | .getBatch _ => s.eof = true → s.buffer.count = 0 → s.loader.tmp = []
  | .ask _ => s.eof = true → s.buffer.count = 0 → s.loader.tmp = []
  | _ => True

/-! ## The invariant -/

/-- What the loading thread has found out about the file. -/
def Phase (s : AsyncReadBuffer) : Prop :=
  match s.loader with
  | .filling tmp => s.eof = false ∧ tmp.length ≤ s.batchSize
  | .ended tmp => s.eof = false ∧ s.infmt = [] ∧ tmp.length < s.batchSize
  | .inserting tmp =>
      if s.eof then s.infmt = [] ∧ tmp.length < s.batchSize else tmp.length = s.batchSize
  | .finished => s.eof = true ∧ s.infmt = []

/-- The queue holds the batches between those that have been handed out and those to come. -/
structure Inv (lines : List String) (out : List ReadEvent) (s : AsyncReadBuffer) : Prop where
  size : 0 < s.batchSize
  account : ∃ items, s.buffer.Holds items ∧
    handed out ++ items ++ groups s.batchSize s.rest = groups s.batchSize lines
  phase : s.Phase
  divides : s.batchSize ∣ lines.length → s.batchSize ∣ s.rest.length
  asking : ∀ tid, s.asking tid = true → s.eof = true

variable {lines : List String} {out o : List ReadEvent} {s s' : AsyncReadBuffer} {tid : ℕ}
  {batchSize batchNum : ℕ}

theorem handed_append (out o : List ReadEvent) : handed (out ++ o) = handed out ++ handed o :=
  List.filterMap_append

theorem inv_init (lines : List String) (hsize : 0 < batchSize) (hnum : 0 < batchNum) :
    Inv lines [] (init lines batchSize batchNum) :=
  ⟨hsize, ⟨[], RingBuffer.holds_init hnum [], rfl⟩, ⟨rfl, Nat.zero_le _⟩, id, fun _ => nofun⟩

/-! ## The loading thread -/

section Load

variable {tmp : Batch} {record : String} {infmt : List String}

theorem load_read (hloader : s.loader = .filling tmp) (hlt : tmp.length < s.batchSize)
    (hinfmt : s.infmt = record :: infmt) :
    s.load = { s with infmt := infmt, loader := .filling (tmp ++ [record]) } := by
  unfold load
  simp only [hloader, if_pos hlt, hinfmt]

theorem load_end (hloader : s.loader = .filling tmp) (hlt : tmp.length < s.batchSize)
    (hinfmt : s.infmt = []) : s.load = { s with loader := .ended tmp } := by
  unfold load
  simp only [hloader, if_pos hlt, hinfmt]

theorem load_full (hloader : s.loader = .filling tmp) (hfull : s.batchSize ≤ tmp.length) :
    s.load = { s with loader := .inserting tmp } := by
  unfold load
  simp only [hloader, if_neg (Nat.not_lt_of_le hfull)]

theorem load_eof (hloader : s.loader = .ended tmp) :
    s.load = { s with eof := true, loader := .inserting tmp } := by
  unfold load
  simp only [hloader]

theorem load_wait (hloader : s.loader = .inserting tmp)
    (hfull : s.buffer.count = s.buffer.cells.length) : s.load = s := by
  unfold load
  simp only [hloader, if_pos hfull]

theorem load_insert (hloader : s.loader = .inserting tmp)
    (hroom : s.buffer.count ≠ s.buffer.cells.length) :
    s.load = { s with
      buffer := if tmp = [] then s.buffer else s.buffer.push tmp
      loader := if s.eof then .finished else .filling [] } := by
  unfold load
  simp only [hloader, if_neg hroom]

theorem load_finished (hloader : s.loader = .finished) : s.load = s := by
  unfold load
  simp only [hloader]

end Load

/-- A step that inserts nothing. -/
theorem Inv.keep (h : Inv lines out s) (hsize : s'.batchSize = s.batchSize)
    (hbuffer : s'.buffer = s.buffer) (hrest : s'.rest = s.rest) (hphase : s'.Phase)
    (hasking : ∀ tid, s'.asking tid = true → s'.eof = true) : Inv lines out s' := by
  obtain ⟨hpos, haccount, -, hdivides, -⟩ := h
  rw [← hsize] at hpos haccount hdivides
  rw [← hrest] at haccount hdivides
  rw [← hbuffer] at haccount
  exact ⟨hpos, haccount, hphase, hdivides, hasking⟩

/-- The lines of a batch that is inserted are the next group. -/
theorem Phase.groups (h : s.Phase) (hsize : 0 < s.batchSize) {tmp : Batch}
    (hloader : s.loader = .inserting tmp) (hne : tmp ≠ []) :
    Lib.groups s.batchSize s.rest = tmp :: Lib.groups s.batchSize s.infmt := by
  rw [Phase, hloader] at h
  rw [rest, hloader, Loader.tmp]
  simp only at h
  split at h
  · obtain ⟨hnil, hlt⟩ := h
    rw [hnil, List.append_nil, groups_of_le hne hlt.le, groups_nil]
  · exact groups_append hsize h s.infmt

/-- **Inserting a batch** puts the next group at the end of the queue. -/
theorem Inv.insert (h : Inv lines out s) {tmp : Batch} (hloader : s.loader = .inserting tmp)
    (hroom : s.buffer.count ≠ s.buffer.cells.length) (hne : tmp ≠ []) (loader : Loader)
    (htmp : loader.tmp = []) (hphase : { s with loader := loader }.Phase) :
    Inv lines out { s with buffer := s.buffer.push tmp, loader := loader } := by
  obtain ⟨items, hholds, haccount⟩ := h.account
  have hgroups := h.phase.groups h.size hloader hne
  have hfits := lt_of_le_of_ne hholds.fits (hholds.count ▸ hroom)
  have hrest : { s with buffer := s.buffer.push tmp, loader := loader }.rest = s.infmt := by
    rw [rest, htmp, List.nil_append]
  refine ⟨h.size, ⟨items ++ [tmp], hholds.push hfits tmp, ?_⟩, hphase, fun hlines => ?_, h.asking⟩
  · rw [hrest, ← haccount, hgroups]
    simp
  · have hdivides := h.divides hlines
    have hold := h.phase
    rw [hrest]
    rw [rest, hloader, Loader.tmp, List.length_append] at hdivides
    rw [Phase, hloader] at hold
    simp only at hold
    split at hold
    · rw [hold.1]
      exact dvd_zero _
    · rw [hold] at hdivides
      exact (Nat.dvd_add_right (dvd_refl _)).mp hdivides

theorem Inv.load (h : Inv lines out s) : Inv lines out s.load := by
  have hphase := h.phase
  unfold Phase at hphase
  cases hloader : s.loader with
  | filling tmp =>
      rw [hloader] at hphase
      obtain ⟨heof, hle⟩ := hphase
      rcases Nat.lt_or_eq_of_le hle with hlt | hfull
      · cases hinfmt : s.infmt with
        | nil =>
            rw [load_end hloader hlt hinfmt]
            refine h.keep rfl rfl ?_ ⟨heof, hinfmt, hlt⟩ h.asking
            rw [rest, rest, hloader]
            rfl
        | cons record infmt =>
            rw [load_read hloader hlt hinfmt]
            refine h.keep rfl rfl ?_ ⟨heof, ?_⟩ h.asking
            · rw [rest, rest, hloader, hinfmt]
              exact List.append_assoc ..
            · rw [List.length_append, List.length_singleton]
              exact hlt
      · rw [load_full hloader hfull.ge]
        refine h.keep rfl rfl ?_ ?_ h.asking
        · rw [rest, rest, hloader]
          rfl
        · simp only [Phase, heof, Bool.false_eq_true, if_false]
          exact hfull
  | ended tmp =>
      rw [hloader] at hphase
      obtain ⟨heof, hnil, hlt⟩ := hphase
      rw [load_eof hloader]
      refine h.keep rfl rfl ?_ ?_ fun _ _ => rfl
      · rw [rest, rest, hloader]
        rfl
      · simp only [Phase, if_true]
        exact ⟨hnil, hlt⟩
  | inserting tmp =>
      by_cases hfull : s.buffer.count = s.buffer.cells.length
      · rwa [load_wait hloader hfull]
      · rw [load_insert hloader hfull]
        rw [hloader] at hphase
        simp only at hphase
        rcases Bool.eq_false_or_eq_true s.eof with heof | heof
        · rw [heof, if_pos rfl] at hphase
          have hdone : (if s.eof then Loader.finished else .filling []) = .finished := by
            rw [heof, if_pos rfl]
          rw [hdone]
          by_cases hnil : tmp = []
          · rw [if_pos hnil]
            refine h.keep rfl rfl ?_ ⟨heof, hphase.1⟩ h.asking
            rw [rest, rest, hloader, hnil]
            rfl
          · rw [if_neg hnil]
            exact h.insert hloader hfull hnil .finished rfl ⟨heof, hphase.1⟩
        · rw [heof, if_neg Bool.false_ne_true] at hphase
          have hmore : (if s.eof then Loader.finished else .filling []) = .filling [] := by
            rw [heof, if_neg Bool.false_ne_true]
          have hne : tmp ≠ [] := List.ne_nil_of_length_pos (hphase ▸ h.size)
          rw [hmore, if_neg hne]
          exact h.insert hloader hfull hne (.filling []) rfl ⟨heof, Nat.zero_le _⟩
  | finished => rwa [load_finished hloader]

/-! ## The consumers -/

/-- A `get_batch` that finds the buffer empty, or takes the first batch out. -/
theorem Inv.getBatch_cases (h : Inv lines out s) (hstep : s.getBatch tid = some (s', o)) :
    (s' = s ∧ s.buffer.count = 0 ∧ (o = [] ∨ s.eof = true ∧ o = [.noMoreData tid])) ∨
    ∃ batch, o = [.gotBatch tid batch] ∧ Inv lines (out ++ o) s' := by
  unfold getBatch at hstep
  split at hstep
  · next hcount =>
      split at hstep
      · next heof =>
          obtain ⟨rfl, rfl⟩ := Prod.mk.inj (Option.some.inj hstep)
          exact .inl ⟨rfl, hcount, .inr ⟨heof, rfl⟩⟩
      · obtain ⟨rfl, rfl⟩ := Prod.mk.inj (Option.some.inj hstep)
        exact .inl ⟨rfl, hcount, .inl rfl⟩
  · next hcount =>
      obtain ⟨items, hholds, haccount⟩ := h.account
      rw [hholds.count] at hcount
      obtain ⟨batch, items, rfl⟩ := List.exists_cons_of_ne_nil
        (List.ne_nil_of_length_pos (Nat.pos_of_ne_zero hcount))
      obtain ⟨buffer, hpop, -, hholds'⟩ := hholds.pop []
      rw [hpop] at hstep
      obtain ⟨rfl, rfl⟩ := Prod.mk.inj (Option.some.inj hstep)
      refine .inr ⟨batch, rfl, h.size, ⟨items, hholds', ?_⟩, h.phase, h.divides, h.asking⟩
      rw [handed_append, ← haccount]
      simp [handed, rest]

/-- An answer that hands nothing out. -/
theorem Inv.snoc_of_none (h : Inv lines out s) (ho : handed o = []) : Inv lines (out ++ o) s := by
  refine ⟨h.size, ?_, h.phase, h.divides, h.asking⟩
  rw [handed_append, ho, List.append_nil]
  exact h.account

theorem Inv.getBatch (h : Inv lines out s) (hstep : s.getBatch tid = some (s', o)) :
    Inv lines (out ++ o) s' := by
  rcases h.getBatch_cases hstep with ⟨rfl, -, rfl | ⟨-, rfl⟩⟩ | ⟨batch, -, hinv⟩
  · rwa [List.append_nil]
  · exact h.snoc_of_none rfl
  · exact hinv

theorem Inv.endOfFile (h : Inv lines out s) (tid : ℕ) :
    Inv lines (out ++ (s.endOfFile tid).2) (s.endOfFile tid).1 := by
  unfold AsyncReadBuffer.endOfFile
  split
  · next heof =>
      rw [List.append_nil]
      exact ⟨h.size, h.account, h.phase, h.divides, fun _ _ => heof⟩
  · exact h.snoc_of_none rfl

theorem Inv.ask (h : Inv lines out s) (hstep : s.ask tid = some (s', o)) :
    Inv lines (out ++ o) s' ∧ s.eof = true ∧ o = [.isEmpty tid (s.buffer.count = 0)] := by
  unfold AsyncReadBuffer.ask at hstep
  split at hstep
  · next hasking =>
      obtain ⟨rfl, rfl⟩ := Prod.mk.inj (Option.some.inj hstep)
      have heof := h.asking tid hasking
      exact ⟨⟨h.size, (h.snoc_of_none rfl).account, h.phase, h.divides, fun _ _ => heof⟩, heof, rfl⟩
  · cases hstep

theorem Inv.step (h : Inv lines out s) {i : ReadStep} (hstep : s.step i = some (s', o)) :
    Inv lines (out ++ o) s' := by
  cases i with
  | load =>
      obtain ⟨rfl, rfl⟩ := Prod.mk.inj (Option.some.inj hstep)
      rw [List.append_nil]
      exact h.load
  | getBatch tid => exact h.getBatch hstep
  | endOfFile tid =>
      obtain ⟨rfl, rfl⟩ := Prod.mk.inj (Option.some.inj hstep)
      exact h.endOfFile tid
  | ask tid => exact (h.ask hstep).1

/-! ## The end of the file -/

/-- **When `eof_` is set and the buffer is empty**, everything has been handed out if and only if the
last batch has been inserted. -/
theorem Inv.handed_iff (h : Inv lines out s) (heof : s.eof = true) (hcount : s.buffer.count = 0) :
    handed out = groups s.batchSize lines ↔ s.loader.tmp = [] := by
  obtain ⟨items, hholds, haccount⟩ := h.account
  obtain rfl := List.length_eq_zero_iff.mp (hholds.count.symm.trans hcount)
  have htmp : s.infmt = [] ∧ s.loader.tmp.length ≤ s.batchSize := by
    have hphase := h.phase
    unfold Phase at hphase
    cases hloader : s.loader with
    | filling tmp =>
        rw [hloader] at hphase
        exact absurd (heof.symm.trans hphase.1) nofun
    | ended tmp =>
        rw [hloader] at hphase
        exact absurd (heof.symm.trans hphase.1) nofun
    | inserting tmp =>
        rw [hloader, heof] at hphase
        exact ⟨hphase.1, hphase.2.le⟩
    | finished =>
        rw [hloader] at hphase
        exact ⟨hphase.2, Nat.zero_le _⟩
  have hrest : s.rest = s.loader.tmp := by rw [rest, htmp.1, List.append_nil]
  rw [hrest, List.append_nil] at haccount
  rw [← haccount, List.self_eq_append_right]
  constructor
  · intro hnil
    by_contra hne
    rw [groups_of_le hne htmp.2] at hnil
    cases hnil
  · intro hnil
    rw [hnil, groups_nil]

theorem step_events {i : ReadStep} (hstep : s.step i = some (s', o)) : o = [] ∨ ∃ e, o = [e] := by
  cases i with
  | load => exact .inl (Prod.mk.inj (Option.some.inj hstep)).2.symm
  | getBatch tid =>
      have hstep : s.getBatch tid = some (s', o) := hstep
      unfold getBatch at hstep
      split at hstep
      · split at hstep
        · exact .inr ⟨_, (Prod.mk.inj (Option.some.inj hstep)).2.symm⟩
        · exact .inl (Prod.mk.inj (Option.some.inj hstep)).2.symm
      · obtain ⟨r, -, heq⟩ := Option.map_eq_some_iff.mp hstep
        exact .inr ⟨_, (Prod.mk.inj heq).2.symm⟩
  | endOfFile tid =>
      have hstep : s.endOfFile tid = (s', o) := Option.some.inj hstep
      unfold endOfFile at hstep
      split at hstep
      · exact .inl (Prod.mk.inj hstep).2.symm
      · exact .inr ⟨_, (Prod.mk.inj hstep).2.symm⟩
  | ask tid =>
      have hstep : s.ask tid = some (s', o) := hstep
      unfold ask at hstep
      split at hstep
      · exact .inr ⟨_, (Prod.mk.inj (Option.some.inj hstep)).2.symm⟩
      · cases hstep

/-- **The file is taken to be over** only with `eof_` set and the buffer empty. -/
theorem Inv.saysEmpty (h : Inv lines out s) {i : ReadStep} {e : ReadEvent}
    (hstep : s.step i = some (s', [e])) (hsaid : SaysEmpty e) :
    s.eof = true ∧ s.buffer.count = 0 ∧ (s.Patient i → s.loader.tmp = []) := by
  cases i with
  | load => cases (Prod.mk.inj (Option.some.inj hstep)).2
  | getBatch tid =>
      rcases h.getBatch_cases hstep with ⟨-, hcount, hnil | ⟨heof, -⟩⟩ | ⟨batch, heq, -⟩
      · cases hnil
      · exact ⟨heof, hcount, fun hpatient => hpatient heof hcount⟩
      · obtain rfl := List.singleton_inj.mp heq
        exact hsaid.elim
  | endOfFile tid =>
      have hstep : s.endOfFile tid = (s', [e]) := Option.some.inj hstep
      unfold AsyncReadBuffer.endOfFile at hstep
      split at hstep
      · cases (Prod.mk.inj hstep).2
      · obtain rfl := List.singleton_inj.mp (Prod.mk.inj hstep).2
        cases hsaid
  | ask tid =>
      obtain ⟨-, heof, heq⟩ := h.ask hstep
      obtain rfl := List.singleton_inj.mp heq
      have hcount : s.buffer.count = 0 := of_decide_eq_true hsaid
      exact ⟨heof, hcount, fun hpatient => hpatient heof hcount⟩

theorem step_batchSize {i : ReadStep} (hstep : s.step i = some (s', o)) :
    s'.batchSize = s.batchSize := by
  cases i with
  | load =>
      obtain ⟨rfl, -⟩ := Prod.mk.inj (Option.some.inj hstep)
      unfold load
      repeat' split
      all_goals rfl
  | getBatch tid =>
      have hstep : s.getBatch tid = some (s', o) := hstep
      unfold getBatch at hstep
      split at hstep
      · split at hstep
        · rw [(Prod.mk.inj (Option.some.inj hstep)).1]
        · rw [(Prod.mk.inj (Option.some.inj hstep)).1]
      · obtain ⟨r, -, heq⟩ := Option.map_eq_some_iff.mp hstep
        rw [← (Prod.mk.inj heq).1]
  | endOfFile tid =>
      have hstep : s.endOfFile tid = (s', o) := Option.some.inj hstep
      unfold endOfFile at hstep
      split at hstep
      · rw [← (Prod.mk.inj hstep).1]
      · rw [(Prod.mk.inj hstep).1]
  | ask tid =>
      have hstep : s.ask tid = some (s', o) := hstep
      unfold ask at hstep
      split at hstep
      · rw [← (Prod.mk.inj (Option.some.inj hstep)).1]
      · cases hstep

theorem Inv.delivers (h : Inv lines out s) (hall : Throughout (fun before e => SaysEmpty e →
    handed before = groups s.batchSize lines) out) : Delivers lines s.batchSize out s := by
  obtain ⟨items, hholds, haccount⟩ := h.account
  rw [← hholds.toList] at haccount
  refine ⟨⟨s.buffer.toList ++ groups s.batchSize s.rest, ?_⟩, haccount, hall⟩
  rw [← List.append_assoc, haccount]

/-! ## Runs -/

theorem run_inv (hsize : 0 < batchSize) (hnum : 0 < batchNum) {steps : List ReadStep}
    (hrun : run step (init lines batchSize batchNum) steps = some (s, out)) :
    Inv lines out s ∧ s.batchSize = batchSize := by
  refine run_along (I := fun out s => Inv lines out s ∧ s.batchSize = batchSize)
    (P := fun _ _ _ => True) (fun hI _ hstep => ?_) ⟨inv_init lines hsize hnum, rfl⟩
    (along_of_forall (fun _ _ => trivial) [] _) hrun
  exact ⟨hI.1.step hstep, (step_batchSize hstep).trans hI.2⟩

/-- **A run in which nobody looks too early.** -/
theorem run_delivers (hsize : 0 < batchSize) (hnum : 0 < batchNum) {steps : List ReadStep}
    {P : List ReadEvent → AsyncReadBuffer → ReadStep → Prop}
    (hP : ∀ {before s i}, Inv lines before s → s.batchSize = batchSize → P before s i → s.Patient i)
    (halong : Along step P [] (init lines batchSize batchNum) steps)
    (hrun : run step (init lines batchSize batchNum) steps = some (s, out)) :
    Delivers lines batchSize out s := by
  have hkeep : (Inv lines out s ∧ s.batchSize = batchSize) ∧ Throughout (fun before e =>
      SaysEmpty e → handed before = groups batchSize lines) out := by
    refine run_along (I := fun out s => (Inv lines out s ∧ s.batchSize = batchSize) ∧
      Throughout (fun before e => SaysEmpty e → handed before = groups batchSize lines) out)
      (fun {out s i s' o} ⟨⟨hinv, hbatch⟩, hall⟩ hi hstep => ?_)
      ⟨⟨inv_init lines hsize hnum, rfl⟩, throughout_nil _⟩ halong hrun
    refine ⟨⟨hinv.step hstep, (step_batchSize hstep).trans hbatch⟩, ?_⟩
    rcases step_events hstep with rfl | ⟨e, rfl⟩
    · rwa [List.append_nil]
    · refine throughout_snoc.mpr ⟨hall, fun hsaid => ?_⟩
      obtain ⟨heof, hcount, htmp⟩ := hinv.saysEmpty hstep hsaid
      rw [← hbatch]
      exact (hinv.handed_iff heof hcount).mpr (htmp (hP hinv hbatch hi))
  obtain ⟨⟨hinv, rfl⟩, hall⟩ := hkeep
  exact hinv.delivers hall

/-- There is no shorter batch at the end. -/
theorem Inv.tmp_eq_nil (h : Inv lines out s) (hlines : s.batchSize ∣ lines.length)
    (heof : s.eof = true) : s.loader.tmp = [] := by
  have hdivides := h.divides hlines
  have hphase := h.phase
  unfold Phase at hphase
  unfold rest at hdivides
  cases hloader : s.loader with
  | filling tmp =>
      rw [hloader] at hphase
      exact absurd (heof.symm.trans hphase.1) nofun
  | ended tmp =>
      rw [hloader] at hphase
      exact absurd (heof.symm.trans hphase.1) nofun
  | inserting tmp =>
      rw [hloader, heof] at hphase
      rw [hloader, hphase.1, List.append_nil] at hdivides
      exact List.eq_nil_of_length_eq_zero (Nat.eq_zero_of_dvd_of_lt hdivides hphase.2)
  | finished => rfl

theorem run_fill {xs ys : List String} {tmp : Batch} (hloader : s.loader = .filling tmp)
    (hinfmt : s.infmt = xs ++ ys) (hle : tmp.length + xs.length ≤ s.batchSize) :
    run step s (List.replicate xs.length .load) =
      some ({ s with infmt := ys, loader := .filling (tmp ++ xs) }, []) := by
  induction xs generalizing s tmp with
  | nil =>
      obtain ⟨infmt, eof, buffer, batchSize, loader, asking⟩ := s
      obtain rfl : infmt = ys := hinfmt
      obtain rfl : loader = .filling tmp := hloader
      rw [List.append_nil]
      rfl
  | cons x xs ih =>
      rw [List.length_cons] at hle
      rw [List.cons_append] at hinfmt
      have hread := load_read hloader (by omega) hinfmt
      have hrest := @ih { s with infmt := xs ++ ys, loader := .filling (tmp ++ [x]) } (tmp ++ [x])
        rfl rfl (by simp only [List.length_append, List.length_singleton]; omega)
      rw [List.length_cons, List.replicate_succ, run_cons]
      change (run step s.load _).bind _ = _
      rw [hread, hrest]
      simp

/-- A full batch is read, inserted and handed out. -/
theorem run_round {xs ys : List String} (hxs : xs.length = s.batchSize) (hne : xs ≠ [])
    (hloader : s.loader = .filling []) (hinfmt : s.infmt = xs ++ ys) (heof : s.eof = false)
    (hbuffer : s.buffer.Holds []) :
    ∃ steps buffer out, buffer.Holds [] ∧ run step s steps =
      some ({ s with infmt := ys, buffer := buffer, loader := .filling [] }, out) := by
  have hpos : 0 < s.buffer.cells.length := Nat.zero_lt_of_lt hbuffer.start_lt
  have hroom : s.buffer.count ≠ s.buffer.cells.length := by
    rw [hbuffer.count]
    exact hpos.ne
  obtain ⟨buffer, hpop, -, hholds⟩ := (hbuffer.push hpos xs).pop []
  have hfill := run_fill hloader hinfmt (by rw [List.length_nil, Nat.zero_add, hxs])
  rw [List.nil_append] at hfill
  have hfull : step { s with infmt := ys, loader := .filling xs } .load =
      some ({ s with infmt := ys, loader := .inserting xs }, []) :=
    congrArg (fun s' => some (s', [])) (load_full rfl hxs.ge)
  have hinsert : load { s with infmt := ys, loader := .inserting xs } =
      { s with infmt := ys, buffer := s.buffer.push xs, loader := .filling [] } := by
    have heq := @load_insert { s with infmt := ys, loader := .inserting xs } xs rfl hroom
    simpa only [if_neg hne, heof, Bool.false_eq_true, if_false] using heq
  have hinserted : step { s with infmt := ys, loader := .inserting xs } .load =
      some ({ s with infmt := ys, buffer := s.buffer.push xs, loader := .filling [] }, []) :=
    congrArg (fun s' => some (s', [])) hinsert
  have hget : step { s with infmt := ys, buffer := s.buffer.push xs, loader := .filling [] }
      (.getBatch 0) =
      some ({ s with infmt := ys, buffer := buffer, loader := .filling [] }, [.gotBatch 0 xs]) := by
    have hcount : (s.buffer.push xs).count ≠ 0 := Nat.succ_ne_zero _
    change getBatch _ 0 = _
    simp only [getBatch, if_neg hcount, hpop, Option.map_some]
  exact ⟨_, buffer, _, hholds, run_snoc (run_snoc (run_snoc hfill hfull) hinserted) hget⟩

/-- A shorter batch at the end can be looked for too early. -/
theorem exists_early (hsize : 0 < s.batchSize) (hloader : s.loader = .filling [])
    (heof : s.eof = false) (hbuffer : s.buffer.Holds [])
    (hlines : ¬ s.batchSize ∣ s.infmt.length) :
    ∃ steps s' out, run step s steps = some (s', out) ∧ s'.eof = true ∧ s'.buffer.count = 0 ∧
      s'.loader.tmp ≠ [] := by
  induction hn : s.infmt.length using Nat.strong_induction_on generalizing s with
  | _ n ih =>
      subst hn
      rcases Nat.lt_or_ge s.infmt.length s.batchSize with hlt | hge
      · -- The lines that are left are no full batch.
        have hfill := run_fill hloader (List.append_nil s.infmt).symm
          (by rw [List.length_nil, Nat.zero_add]; exact hlt.le)
        rw [List.nil_append] at hfill
        have hend : step { s with infmt := [], loader := .filling s.infmt } .load =
            some ({ s with infmt := [], loader := .ended s.infmt }, []) :=
          congrArg (fun s' => some (s', [])) (load_end rfl hlt rfl)
        have heof' : step { s with infmt := [], loader := .ended s.infmt } .load =
            some ({ s with infmt := [], eof := true, loader := .inserting s.infmt }, []) :=
          congrArg (fun s' => some (s', [])) (load_eof rfl)
        refine ⟨_, _, _, run_snoc (run_snoc hfill hend) heof', rfl, hbuffer.count, fun hnil => ?_⟩
        have hnil : s.infmt = [] := hnil
        rw [hnil] at hlines
        exact hlines (dvd_zero _)
      · have hsplit := (List.take_append_drop s.batchSize s.infmt).symm
        have htake : (s.infmt.take s.batchSize).length = s.batchSize :=
          List.length_take_of_le hge
        have hdrop : (s.infmt.drop s.batchSize).length = s.infmt.length - s.batchSize :=
          List.length_drop
        have hne : s.infmt.take s.batchSize ≠ [] :=
          List.ne_nil_of_length_pos (by rw [htake]; exact hsize)
        obtain ⟨steps, buffer, out, hholds, hround⟩ := run_round htake hne hloader hsplit heof hbuffer
        have hlines' : ¬ s.batchSize ∣ (s.infmt.drop s.batchSize).length := by
          intro hdvd
          rw [hdrop] at hdvd
          have hsum := Nat.dvd_add hdvd (dvd_refl s.batchSize)
          rw [Nat.sub_add_cancel hge] at hsum
          exact hlines hsum
        obtain ⟨steps', s', out', hrun, hs'⟩ := ih (s.infmt.drop s.batchSize).length
          (by rw [hdrop]; omega)
          (s := { s with infmt := s.infmt.drop s.batchSize, buffer := buffer, loader := .filling [] })
          hsize rfl heof hholds hlines' rfl
        exact ⟨_, s', _, run_trans hround hrun, hs'⟩

/-- **Every line is delivered** in every interleaving, if and only if the number of lines is a
multiple of the batch size; and whatever it is, in every interleaving in which nobody looks at an
empty buffer between setting `eof_` and inserting the last batch. -/
theorem delivers_iff (lines : List String) (batchSize batchNum : ℕ) (hsize : 0 < batchSize)
    (hnum : 0 < batchNum) :
    ((∀ steps s out, run step (init lines batchSize batchNum) steps = some (s, out) →
        Delivers lines batchSize out s) ↔ batchSize ∣ lines.length) ∧
      ∀ steps s out, Along step (fun _ s i => s.Patient i) [] (init lines batchSize batchNum) steps →
        run step (init lines batchSize batchNum) steps = some (s, out) →
          Delivers lines batchSize out s := by
  refine ⟨⟨fun hdelivers => ?_, fun hlines steps s out hrun => ?_⟩, fun steps s out halong hrun => ?_⟩
  · by_contra hlines
    obtain ⟨steps, s, out, hrun, heof, hcount, htmp⟩ := @exists_early
      (init lines batchSize batchNum) hsize rfl rfl (RingBuffer.holds_init hnum []) hlines
    obtain ⟨hinv, hbatch⟩ := run_inv hsize hnum hrun
    have hget : step s (.getBatch 0) = some (s, [.noMoreData 0]) := by
      change getBatch s 0 = _
      unfold getBatch
      rw [if_pos hcount, if_pos heof]
    have hall := (hdelivers _ _ _ (run_snoc hrun hget)).all
    rw [← hbatch] at hall
    exact htmp ((hinv.handed_iff heof hcount).mp ((throughout_snoc.mp hall).2 trivial))
  · refine run_delivers hsize hnum (P := fun _ _ _ => True) (fun {before s i} hinv hbatch _ => ?_)
      (along_of_forall (fun _ _ => trivial) [] _) hrun
    rw [← hbatch] at hlines
    cases i with
    | getBatch tid => exact fun heof _ => hinv.tmp_eq_nil hlines heof
    | ask tid => exact fun heof _ => hinv.tmp_eq_nil hlines heof
    | load => trivial
    | endOfFile tid => trivial
  · exact run_delivers hsize hnum (fun _ _ hpatient => hpatient) halong hrun

/-- Two lines are one full batch. -/
theorem delivers_iff_full : ∃ s, run step (init ["+1 1:1", "-1 2:1"] 2 1)
      [.load, .load, .load, .load, .getBatch 0, .load, .load, .getBatch 1] =
      some (s, [.gotBatch 0 ["+1 1:1", "-1 2:1"], .noMoreData 1]) ∧
    Delivers ["+1 1:1", "-1 2:1"] 2
      [.gotBatch 0 ["+1 1:1", "-1 2:1"], .noMoreData 1] s :=
  ⟨_, rfl, (delivers_iff ["+1 1:1", "-1 2:1"] 2 1 (by decide) (by decide)).1.mpr (dvd_refl 2)
    [.load, .load, .load, .load, .getBatch 0, .load, .load, .getBatch 1] _ _ rfl⟩

/-- **The last batch comes after the end of the file**: with one line and batches of two, `eof_` is
set before the line is inserted, and a `get_batch` in between returns `false`. -/
theorem last_batch_late : ¬ ∀ (lines : List String) (batchSize batchNum : ℕ), 0 < batchSize →
    0 < batchNum → ∀ steps s out, run step (init lines batchSize batchNum) steps = some (s, out) →
      Delivers lines batchSize out s := by
  intro hclaim
  have hrun : run step (init ["+1 1:1"] 2 1) [.load, .load, .load, .getBatch 0] =
      some (_, [.noMoreData 0]) := rfl
  have hall := (hclaim ["+1 1:1"] 2 1 (by decide) (by decide) _ _ _ hrun).all
  exact absurd (hall [] (.noMoreData 0) [] rfl trivial) (by decide)

end AsyncReadBuffer

end FlexPS.Input
