import FlexPS.KVStore.Reassembly

/-!
# Outstanding pulls

One worker issues pulls to any stores, the servers answer their slices out of whatever they
hold at that time, and the replies of all requests arrive in any order.  The receiving
thread handles one reply at a time, in two steps: the reply is recorded, and the callback
run if it was the last one; then it is counted.

A request is known by its store and timestamp.  `ledger` is all that the system holds for
one request, and every step changes the ledger of a single request.

## Main definitions

* `PullSystem`, `PullAct`, `pullStep` — the system and its steps.
* `Enabled` — what callers, servers and threads may do next.
* `Reach` — the states of all runs.
* `ledger` — the system as one request sees it.
-/

namespace FlexPS.KVStore

open Lib

variable {Val : Type}

/-! ## The system -/

/-- A message on its way to a server. -/
structure Sent (Val : Type) where
  kvId : ℕ
  server : ℕ
  request : Request Val

/-- The request a message belongs to. -/
def Sent.key (q : Sent Val) : ℕ × ℕ := (q.kvId, q.request.ts)

/-- Who answered which request, and what that server held then. -/
structure Answer (Val : Type) where
  key : ℕ × ℕ
  server : ℕ
  held : ℕ → Val

/-- A worker with pulls outstanding.  `calls` and `recorded` are a log: the call of every
request, and the answers whose replies were recorded, in the order of their arrival. -/
structure PullSystem (Val : Type) where
  worker : KVWorker Val
  requests : List (Sent Val)
  replies : List (Answer Val × BinStream Val)
  /-- The request whose reply was handled but not yet counted. -/
  counting : Option (ℕ × ℕ)
  calls : ℕ × ℕ → Option (Call Val)
  recorded : List (Answer Val)

/-- Before the first call. -/
def PullSystem.init : PullSystem Val := ⟨.new, [], [], none, fun _ => none, []⟩

/-- What can happen next; an answer comes with the stores at that time. -/
inductive PullAct (S : ℕ → ℕ → Type) (Val : Type) where
  | call (kvId : ℕ) (c : Call Val) (f : Flags)
  | answer (j : ℕ) (stores : ∀ kvId i, S kvId i)
  | arrive (j : ℕ)
  | count

section System

variable {S : ℕ → ℕ → Type} [∀ kvId i, StorageT (S kvId i) Val] {tables : ℕ → RangeTable}
  {isVector : ℕ → ℕ → Bool}
  (V : ∀ kvId i, StoreView (S kvId i) Val (tables kvId) i (isVector kvId i)) (src : ℕ)

/-- The messages of a call that are sent. -/
def sentMessages (kvId : ℕ) (messages : List (Option (Request Val))) : List (Sent Val) :=
  messages.zipIdx.filterMap fun (m, i) => m.map fun r => ⟨kvId, i, r⟩

/-- One step. -/
def pullStep (s : PullSystem Val) : PullAct S Val → Option (PullSystem Val)
  | .call kvId c f => do
      let (ts, worker, messages) ← c.issue tables src s.worker kvId f
      some { s with
        worker
        requests := s.requests ++ sentMessages kvId messages
        calls := Function.update s.calls (kvId, ts) (some c) }
  | .answer j stores => do
      let q ← s.requests[j]?
      let store := stores q.kvId q.server
      let (_, out) ← answerPull (tables q.kvId) q.kvId q.server (isVector q.kvId q.server) store
        { q.request.entry with cmd := q.request.cmd % consistencyControlOffMagic }
      some { s with
        requests := s.requests.eraseIdx j
        replies := s.replies ++ out.map fun r =>
          (⟨q.key, q.server, (V q.kvId q.server).view store⟩, response r) }
  | .arrive j =>
      if s.counting.isSome then none
      else do
        let (a, bin) ← s.replies[j]?
        let (key, worker) ← s.worker.receive tables bin
        some { s with
          worker
          replies := s.replies.eraseIdx j
          counting := some key
          recorded := s.recorded ++ [a] }
  | .count => do
      let key ← s.counting
      some { s with worker := s.worker.countResponse key, counting := none }

/-- Callers make valid pulls, and the stores are well-formed. -/
def Admissible : PullAct S Val → Prop
  | .call kvId c _ => c.ValidPull (tables kvId)
  | .answer _ stores => ∀ kvId i, (V kvId i).Good (stores kvId i)
  | _ => True

/-- Messages can be answered or arrive in any order, and the receiving thread counts a reply
before it takes the next one. -/
def Enabled (s : PullSystem Val) (a : PullAct S Val) : Prop :=
  Admissible V a ∧ match a with
    | .call _ _ _ => True
    | .answer j _ => j < s.requests.length
    | .arrive j => j < s.replies.length ∧ s.counting = none
    | .count => s.counting.isSome

/-- The states of all runs. -/
inductive Reach : PullSystem Val → Prop
  | init : Reach .init
  | step {s s' : PullSystem Val} (a : PullAct S Val) :
      Reach s → Admissible V a → pullStep V src s a = some s' → Reach s'

/-- Steps one after the other. -/
def pullRun (s : PullSystem Val) : List (PullAct S Val) → Option (PullSystem Val)
  | [] => some s
  | a :: acts => (pullStep V src s a).bind fun s => pullRun s acts

theorem Reach.run {acts : List (PullAct S Val)} (hacts : ∀ a ∈ acts, Admissible V a)
    {s s' : PullSystem Val} (hs : Reach V src s) (hrun : pullRun V src s acts = some s') :
    Reach V src s' := by
  induction acts generalizing s with
  | nil => exact Option.some.inj hrun ▸ hs
  | cons a acts ih =>
      obtain ⟨s₁, hstep, hrest⟩ := Option.bind_eq_some_iff.mp hrun
      exact ih (fun b hb => hacts b (by simp [hb])) (.step a hs (hacts a (by simp)) hstep) hrest

end System

/-! ## Worker operations, request by request -/

namespace KVWorker

variable (w : KVWorker Val)

theorem entry_newRequest (kvId m : ℕ) (key : ℕ × ℕ) :
    (w.newRequest kvId m).1.entry key =
      if key = (kvId, (w.newRequest kvId m).2) then some (m, 0) else w.entry key := by
  obtain ⟨kv, ts⟩ := key
  simp only [entry, newRequest, slot_modifyAt, Prod.mk.injEq]
  by_cases hkv : kv = kvId
  · subst hkv
    by_cases hts : ts = (slot w.tracker kv).length
    · simp [hts]
    · rw [if_pos rfl, if_neg (by simp [hts]), List.getElem?_append]
      split
      · rfl
      · rw [List.getElem?_eq_none (l := slot w.tracker kv) (by omega),
          List.getElem?_eq_none (by simp; omega)]
  · simp [hkv]

theorem entry_countResponse (key key' : ℕ × ℕ) :
    (w.countResponse key).entry key' =
      if key' = key then (w.entry key).map fun e => (e.1, e.2 + 1) else w.entry key' := by
  obtain ⟨kv, ts⟩ := key
  obtain ⟨kv', ts'⟩ := key'
  simp only [entry, countResponse, slot_modifyAt, Prod.mk.injEq]
  by_cases hkv : kv' = kv
  · subst hkv
    by_cases hts : ts' = ts
    · simp [hts]
    · simp [hts, Ne.symm hts]
  · simp [hkv]

end KVWorker

/-! ## Ledgers -/

/-- All that the system holds for one request. -/
structure Ledger (Val : Type) where
  entry : Option (ℕ × ℕ)
  recv : Option (Recv Val)
  callback : Option (Callback Val)
  finished : List (Dest Val)
  requests : List (Sent Val)
  replies : List (Answer Val × BinStream Val)
  recorded : List (Answer Val)
  counting : Bool

/-- The ledger of a request that was not made. -/
def Ledger.blank : Ledger Val := ⟨none, none, none, [], [], [], [], false⟩

/-- The system as one request sees it. -/
def PullSystem.ledger (s : PullSystem Val) (key : ℕ × ℕ) : Ledger Val where
  entry := s.worker.entry key
  recv := s.worker.recvKvs key
  callback := s.worker.callbacks key
  finished := (s.worker.finished.filter fun d => d.1 = key).map Prod.snd
  requests := s.requests.filter fun q => q.key = key
  replies := s.replies.filter fun p => p.1.key = key
  recorded := s.recorded.filter fun a => a.key = key
  counting := s.counting = some key

/-- Taking one item out of a list. -/
theorem exists_eraseIdx {α : Type} {l : List α} {j : ℕ} {x : α} (h : l[j]? = some x) :
    ∃ l₁ l₂, l = l₁ ++ x :: l₂ ∧ l.eraseIdx j = l₁ ++ l₂ := by
  obtain ⟨hj, rfl⟩ := List.getElem?_eq_some_iff.mp h
  refine ⟨l.take j, l.drop (j + 1), ?_, List.eraseIdx_eq_take_drop_succ l j⟩
  rw [List.cons_getElem_drop_succ, List.take_append_drop]

theorem sentMessages_map_range (kvId n : ℕ) (g : ℕ → Option (Request Val)) :
    sentMessages kvId ((List.range n).map g) =
      (List.range n).filterMap fun i => (g i).map fun r => ⟨kvId, i, r⟩ := by
  rw [sentMessages, zipIdx_map_range, List.filterMap_map]
  rfl

theorem mem_sentMessages {kvId n : ℕ} {g : ℕ → Option (Request Val)} {q : Sent Val} :
    q ∈ sentMessages kvId ((List.range n).map g) ↔
      q.server < n ∧ q.kvId = kvId ∧ g q.server = some q.request := by
  rw [sentMessages_map_range, List.mem_filterMap]
  constructor
  · rintro ⟨i, hi, h⟩
    obtain ⟨r, hr, rfl⟩ := Option.map_eq_some_iff.mp h
    exact ⟨List.mem_range.mp hi, rfl, hr⟩
  · rintro ⟨hi, rfl, hr⟩
    exact ⟨q.server, List.mem_range.mpr hi, by rw [hr]; rfl⟩

section Steps

variable {S : ℕ → ℕ → Type} [∀ kvId i, StorageT (S kvId i) Val] {tables : ℕ → RangeTable}
  {isVector : ℕ → ℕ → Bool}
  (V : ∀ kvId i, StoreView (S kvId i) Val (tables kvId) i (isVector kvId i)) (src : ℕ)

/-- A step that succeeded was enabled. -/
theorem enabled_of_step {s s' : PullSystem Val} {a : PullAct S Val} (ha : Admissible V a)
    (hstep : pullStep V src s a = some s') : Enabled V s a := by
  refine ⟨ha, ?_⟩
  cases a with
  | call kvId c f => trivial
  | answer j stores =>
      obtain ⟨q, hq, -⟩ := Option.bind_eq_some_iff.mp hstep
      exact (List.getElem?_eq_some_iff.mp hq).1
  | arrive j =>
      cases hcounting : s.counting with
      | some key => simp [pullStep, hcounting] at hstep
      | none =>
          simp only [pullStep, hcounting, Option.isSome_none, Bool.false_eq_true, if_false] at hstep
          obtain ⟨p, hp, -⟩ := Option.bind_eq_some_iff.mp hstep
          exact ⟨(List.getElem?_eq_some_iff.mp hp).1, rfl⟩
  | count =>
      obtain ⟨key, hkey, -⟩ := Option.bind_eq_some_iff.mp hstep
      exact Option.isSome_of_eq_some hkey

/-- The timestamp of the next request to a store. -/
def PullSystem.nextTs (s : PullSystem Val) (kvId : ℕ) : ℕ := (slot s.worker.tracker kvId).length

theorem PullSystem.entry_nextTs (s : PullSystem Val) (kvId : ℕ) :
    s.worker.entry (kvId, s.nextTs kvId) = none := by
  simp [KVWorker.entry, PullSystem.nextTs]

/-- The messages of a valid pull that are sent. -/
def pullMessages (t : RangeTable) (n src : ℕ) (f : Flags) (c : Call Val) (key : ℕ × ℕ) :
    List (Sent Val) :=
  sentMessages key.1 ((List.range n).map (c.pullMessage t n src key.2 f))

theorem exists_callback {t : RangeTable} {c : Call Val} (hc : c.ValidPull t) :
    ∃ cb, c.callback = some cb := by
  cases c with
  | pull keys => exact ⟨_, rfl⟩
  | pullChunks ids chunks => exact ⟨_, rfl⟩
  | push _ _ => exact hc.elim
  | pushChunks _ _ => exact hc.elim
  | pullChunksWithMinClock _ _ => exact hc.elim

/-- All messages of a call belong to its request. -/
theorem key_of_mem_pullMessages {t : RangeTable} {n : ℕ} {f : Flags} {c : Call Val}
    (hc : c.ValidPull t) {key : ℕ × ℕ} {q : Sent Val} (hq : q ∈ pullMessages t n src f c key) :
    q.key = key := by
  obtain ⟨-, hkv, hr⟩ := mem_sentMessages.mp hq
  have hslice := isSlice_pullMessage n src key.2 f hc.fits q.server
  rw [hr] at hslice
  rw [Sent.key, hkv, hslice.1]

theorem filter_pullMessages {t : RangeTable} {n : ℕ} {f : Flags} {c : Call Val}
    (hc : c.ValidPull t) (key key' : ℕ × ℕ) :
    (pullMessages t n src f c key).filter (fun q => q.key = key') =
      if key' = key then pullMessages t n src f c key else [] := by
  split
  · next h =>
      rw [List.filter_eq_self]
      intro q hq
      simpa [h] using key_of_mem_pullMessages src hc hq
  · next h =>
      rw [List.filter_eq_nil_iff]
      intro q hq hkey
      exact h ((of_decide_eq_true hkey).symm.trans (key_of_mem_pullMessages src hc hq))

/-- What a call does to the ledgers. -/
theorem ledger_call {n kvId : ℕ} (ht : (tables kvId).Partitioned n) {c : Call Val}
    (hc : c.ValidPull (tables kvId)) (f : Flags) (s : PullSystem Val) :
    ∃ s', pullStep V src s (.call kvId c f) = some s' ∧
      s'.calls = Function.update s.calls (kvId, s.nextTs kvId) (some c) ∧
      ∀ key, s'.ledger key = if key = (kvId, s.nextTs kvId) then
        { s.ledger key with
          entry := some ((c.asked (tables kvId) n).length, 0)
          callback := c.callback
          requests := (s.ledger key).requests ++ pullMessages (tables kvId) n src f c key }
        else s.ledger key := by
  obtain ⟨cb, hcb⟩ := exists_callback hc
  set ts := s.nextTs kvId with hts
  set worker := (s.worker.newRequest kvId (c.asked (tables kvId) n).length).1 with hworker
  refine ⟨{ s with
    worker := worker.addCallback (kvId, ts) cb
    requests := s.requests ++ pullMessages (tables kvId) n src f c (kvId, ts)
    calls := Function.update s.calls (kvId, ts) (some c) }, ?_, rfl, ?_⟩
  · simp only [pullStep, Call.issue, slices_pull ht src f hc.fits, hcb, Option.bind_eq_bind,
      Option.bind_some]
    rfl
  · intro key
    have hentry : worker.entry key = if key = (kvId, ts) then
        some ((c.asked (tables kvId) n).length, 0) else s.worker.entry key :=
      s.worker.entry_newRequest kvId _ key
    by_cases hkey : key = (kvId, ts)
    · subst hkey
      rw [if_pos rfl] at hentry
      simp only [PullSystem.ledger, List.filter_append, filter_pullMessages src hc, if_true,
        KVWorker.addCallback, Function.update_self, hcb, Ledger.mk.injEq, and_true, true_and]
      exact ⟨hentry, rfl, rfl⟩
    · rw [if_neg hkey] at hentry
      simp only [PullSystem.ledger, List.filter_append, filter_pullMessages src hc, hkey, if_false,
        List.append_nil, KVWorker.addCallback, ne_eq, not_false_eq_true, Function.update_of_ne,
        Ledger.mk.injEq, and_true]
      exact ⟨hentry, rfl, rfl, rfl⟩

/-- What an answer does to the ledgers: a message is taken and its reply, if it gets one, is
on its way. -/
theorem ledger_answer {s : PullSystem Val} {j : ℕ} {stores : ∀ kvId i, S kvId i} {q : Sent Val}
    (hq : s.requests[j]? = some q) {store : S q.kvId q.server} {out : List (Reply Val)}
    (hout : answerPull (tables q.kvId) q.kvId q.server (isVector q.kvId q.server)
      (stores q.kvId q.server)
      { q.request.entry with cmd := q.request.cmd % consistencyControlOffMagic } =
        some (store, out)) :
    ∃ s' l₁ l₂, pullStep V src s (.answer j stores) = some s' ∧ s'.calls = s.calls ∧
      (∀ key, key ≠ q.key → s'.ledger key = s.ledger key) ∧
      (s.ledger q.key).requests = l₁ ++ q :: l₂ ∧
      s'.ledger q.key = { s.ledger q.key with
        requests := l₁ ++ l₂
        replies := (s.ledger q.key).replies ++ out.map fun r =>
          (⟨q.key, q.server, (V q.kvId q.server).view (stores q.kvId q.server)⟩, response r) } := by
  obtain ⟨l₁, l₂, hl, herase⟩ := exists_eraseIdx hq
  refine ⟨{ s with
    requests := s.requests.eraseIdx j
    replies := s.replies ++ out.map fun r =>
      (⟨q.key, q.server, (V q.kvId q.server).view (stores q.kvId q.server)⟩, response r) },
    l₁.filter fun q' => q'.key = q.key, l₂.filter fun q' => q'.key = q.key,
    by simp only [pullStep, hq, hout, Option.bind_eq_bind, Option.bind_some], rfl, ?_, ?_, ?_⟩
  · intro key hkey
    rw [hl] at herase
    simp [PullSystem.ledger, herase, hl, List.filter_map, Function.comp_def, hkey.symm]
  · simp [PullSystem.ledger, hl]
  · simp [PullSystem.ledger, herase, List.filter_map, Function.comp_def]

/-- What an arrival does to the ledgers: the worker has handled the reply, which is left to
be counted. -/
theorem ledger_arrive {s : PullSystem Val} {j : ℕ} {a : Answer Val} {bin : BinStream Val}
    (hj : s.replies[j]? = some (a, bin)) (hidle : s.counting = none) {worker : KVWorker Val}
    (hreceive : s.worker.receive tables bin = some (a.key, worker))
    (htracker : worker.tracker = s.worker.tracker)
    (hframe : ∀ key, key ≠ a.key → worker.recvKvs key = s.worker.recvKvs key ∧
      worker.callbacks key = s.worker.callbacks key ∧
      worker.finished.filter (fun d => d.1 = key) =
        s.worker.finished.filter (fun d => d.1 = key)) :
    ∃ s' l₁ l₂, pullStep V src s (.arrive j) = some s' ∧ s'.calls = s.calls ∧
      (∀ key, key ≠ a.key → s'.ledger key = s.ledger key) ∧
      (s.ledger a.key).replies = l₁ ++ (a, bin) :: l₂ ∧
      s'.ledger a.key = { s.ledger a.key with
        recv := worker.recvKvs a.key
        callback := worker.callbacks a.key
        finished := (worker.finished.filter fun d => d.1 = a.key).map Prod.snd
        replies := l₁ ++ l₂
        recorded := (s.ledger a.key).recorded ++ [a]
        counting := true } := by
  obtain ⟨l₁, l₂, hl, herase⟩ := exists_eraseIdx hj
  refine ⟨{ s with
    worker
    replies := s.replies.eraseIdx j
    counting := some a.key
    recorded := s.recorded ++ [a] },
    l₁.filter fun p => p.1.key = a.key, l₂.filter fun p => p.1.key = a.key,
    by simp [pullStep, hidle, hj, hreceive], rfl, ?_, ?_, ?_⟩
  · intro key hkey
    obtain ⟨hrecv, hcallbacks, hfinished⟩ := hframe key hkey
    rw [hl] at herase
    simp [PullSystem.ledger, KVWorker.entry, herase, hl, hidle, hkey.symm, htracker, hrecv,
      hcallbacks, hfinished]
  · simp [PullSystem.ledger, hl]
  · simp [PullSystem.ledger, KVWorker.entry, herase, htracker]

/-- What a count does to the ledgers. -/
theorem ledger_count {s : PullSystem Val} {key : ℕ × ℕ} (hkey : s.counting = some key) :
    ∃ s', pullStep V src s .count = some s' ∧ s'.calls = s.calls ∧
      (∀ key', key' ≠ key → s'.ledger key' = s.ledger key') ∧
      s'.ledger key = { s.ledger key with
        entry := (s.ledger key).entry.map fun e => (e.1, e.2 + 1)
        counting := false } := by
  refine ⟨{ s with worker := s.worker.countResponse key, counting := none },
    by simp only [pullStep, hkey, Option.bind_eq_bind, Option.bind_some], rfl, ?_, ?_⟩
  · intro key' hne
    simp only [PullSystem.ledger, s.worker.entry_countResponse key key', if_neg hne]
    simp [KVWorker.countResponse, hkey, hne.symm]
  · simp only [PullSystem.ledger, s.worker.entry_countResponse key key, if_true]
    simp [KVWorker.countResponse]

end Steps

end FlexPS.KVStore
