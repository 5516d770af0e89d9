import Mathlib.Data.Multiset.Filter
import FlexPS.KVStore.Outline

/-!
# Completion callbacks

A caller may hand any request a callback.  The pulls wrap it into the callback they register,
which ends by calling it; the pushes take it as an argument and drop it.  The receiving thread
runs the registered callback with the reply that completes the count, so a request that waits
for no reply never runs one.  When the registered callback cannot copy what has come, it throws or
reads beyond its reply, and the receiving thread goes no further.

The servers answer every slice that is not empty once, in any order and between the replies
to other requests.  The values of their answers are left open here.

## Main definitions

* `Api` — the calls a worker offers.
* `Completion.State`, `Completion.step` — a worker with requests of all kinds outstanding.
* `Call.CallsBack` — which calls run the callback they are given.
* `Completion.callbacks_complete` — they do, and no others.
-/

namespace FlexPS.KVStore

open Lib

variable {Val : Type}

/-! ## Calls -/

/-- The calls of `KVWorker`, each with a callback that is not null. -/
inductive Api (Val : Type) where
  | push (keys : List ℕ) (vals : List Val)
  | zPush (keys : List ℕ) (vals : List Val)
  | pull (keys : List ℕ)
  | zPull (keys : List ℕ)
  | pushChunks (chunkIds : List ℕ) (chunks : List (List Val))
  | pullChunks (chunkIds : List ℕ) (chunks : List (List Val))
  | pullChunksWithMinClock (chunkIds : List ℕ) (chunks : List (List Val))
  deriving DecidableEq, Repr

/-- `Push` is `ZPush` on copies of its vectors, and `Pull` and `ZPull` are both `Pull_`. -/
def Api.call : Api Val → Call Val
  | push keys vals => .push keys vals
  | zPush keys vals => .push keys vals
  | pull keys => .pull keys
  | zPull keys => .pull keys
  | pushChunks chunkIds chunks => .pushChunks chunkIds chunks
  | pullChunks chunkIds chunks => .pullChunks chunkIds chunks
  | pullChunksWithMinClock chunkIds chunks => .pullChunksWithMinClock chunkIds chunks

/-- The call is a pull, some server has a part of it, and its callback can copy what it gets. -/
def Call.CallsBack (t : RangeTable) (c : Call Val) : Prop :=
  c.isPush = false ∧ c.parts t ≠ [] ∧ c.CanCopy t

/-- A pull whose list is in order calls back unless the list is empty. -/
theorem Call.callsBack_iff {t : RangeTable} {n : ℕ} (ht : t.Partitioned n) {c : Call Val}
    (horder : c.InOrder t) : c.CallsBack t ↔ c.isPush = false ∧ c.listed ≠ [] := by
  rw [CallsBack, parts_ne_nil_iff ht horder, and_iff_left (canCopy_of_inOrder horder)]

theorem isPush_iff_callback (c : Call Val) : c.callback = none ↔ c.isPush = true := by
  cases c <;> simp [Call.callback, Call.isPush]

/-! ## The worker and its requests -/

namespace Completion

/-- A worker with requests outstanding.  `requests` is a log. -/
structure State (Val : Type) where
  worker : KVWorker Val
  /-- The slices that are not answered yet. -/
  slices : List (Sent Val)
  replies : List (Reply Val)
  /-- The request whose reply was handled but not yet counted. -/
  counting : Option (ℕ × ℕ)
  /-- The receiving thread has failed in a callback. -/
  stopped : Bool
  requests : ℕ × ℕ → Option (Api Val)

/-- Before the first call. -/
def State.init : State Val := ⟨.new, [], [], none, false, fun _ => none⟩

/-- What can happen next. -/
inductive Act (Val : Type) where
  | call (kvId : ℕ) (api : Api Val) (f : Flags)
  | answer (j : ℕ) (r : Reply Val)
  | arrive (j : ℕ)
  | count

section System

variable (tables : ℕ → RangeTable) (src : ℕ)

/-- One step. -/
def step (s : State Val) : Act Val → Option (State Val)
  | .call kvId api f => do
      let (ts, worker, messages) ← api.call.issue tables src s.worker kvId f
      some { s with
        worker
        slices := s.slices ++ nonemptySlices kvId messages
        requests := Function.update s.requests (kvId, ts) (some api) }
  | .answer j r => do
      let q ← s.slices[j]?
      if Answers tables r q then
        some { s with slices := s.slices.eraseIdx j, replies := s.replies ++ [r] }
      else none
  | .arrive j =>
      if s.counting.isSome then none
      else do
        let r ← s.replies[j]?
        let taken := { s with replies := s.replies.eraseIdx j, counting := some r.request }
        match s.worker.receive tables (response r) with
        | some (_, worker) => some { taken with worker }
        | none => some { taken with stopped := true }
  | .count =>
      if s.stopped then none
      else do
        let key ← s.counting
        some { s with worker := s.worker.countResponse key, counting := none }

/-- The states of all runs. -/
inductive Reach : State Val → Prop
  | init : Reach .init
  | next {s s' : State Val} (a : Act Val) : Reach s → step tables src s a = some s' → Reach s'

/-- Steps one after the other. -/
def steps (s : State Val) : List (Act Val) → Option (State Val)
  | [] => some s
  | a :: acts => (step tables src s a).bind fun s => steps s acts

theorem Reach.steps {tables : ℕ → RangeTable} {src : ℕ} {s s' : State Val} {acts : List (Act Val)}
    (hs : Reach tables src s) (hrun : steps tables src s acts = some s') : Reach tables src s' := by
  induction acts generalizing s with
  | nil => exact Option.some.inj hrun ▸ hs
  | cons a acts ih =>
      obtain ⟨s₁, hstep, hrest⟩ := Option.bind_eq_some_iff.mp hrun
      exact ih (.next a hs hstep) hrest

end System

/-- How often the callback of a request has been called. -/
def State.invoked (s : State Val) (key : ℕ × ℕ) : ℕ := s.worker.finished.countP fun d => d.1 = key

/-- How many replies to a request are still to be received. -/
def State.outstanding (s : State Val) (key : ℕ × ℕ) : ℕ :=
  (s.slices.countP fun q => q.key = key) + s.replies.countP fun r => r.request = key

/-- The callback is called once, when the last reply has been received, and `Wait` does not
return before it. -/
def State.CalledBack (s : State Val) (key : ℕ × ℕ) : Prop :=
  s.invoked key = (if s.outstanding key = 0 then 1 else 0) ∧
    (s.worker.Returns key → s.invoked key = 1)


/-! ## The answers of the servers -/

theorem length_readAll {S : Type} [StorageT S Val] {interval : ℤ} {store store' : S} {keys : List ℕ}
    {vals : List Val} (h : readAll interval store keys = some (vals, store')) :
    vals.length = keys.length := by
  induction keys generalizing store vals with
  | nil =>
      obtain ⟨rfl, -⟩ := Prod.mk.inj (Option.some.inj h)
      rfl
  | cons k keys ih =>
      obtain ⟨⟨v, s₁⟩, -, h⟩ := Option.bind_eq_some_iff.mp h
      obtain ⟨⟨vs, s₂⟩, hrest, h⟩ := Option.bind_eq_some_iff.mp h
      obtain ⟨rfl, rfl⟩ := Prod.mk.inj (Option.some.inj h)
      rw [List.length_cons, List.length_cons, ih hrest]

/-- The codes of the commands that a server can answer. -/
theorem cmd_of_decodePull {t : RangeTable} {cmd : ℕ} {bin : BinStream Val} {asked : List ℕ × List ℕ}
    (h : decodePull t cmd bin = some asked) : cmd ≤ 3 := by
  unfold decodePull at h
  split at h
  · decide
  · decide
  · decide
  · decide
  · cases h

/-- **What a server replies to a pull answers it**, whatever its store is and holds.  No pull of
keys asks for a clock, and its code would be 12. -/
theorem answers_of_answerPullAs {S : Type} [StorageT S Val] {tables : ℕ → RangeTable} {q : Sent Val}
    (hpull : q.request.push = false) {cmd : ℕ} (hcmd : cmd = q.request.cmd % consistencyControlOffMagic)
    (hne : cmd ≠ 12) {serverId minClock : ℕ} {isVector : Bool} {store store' : S}
    {out : List (Reply Val)}
    (h : answerPullAs (tables q.kvId) q.kvId serverId isVector (bodyCmd cmd) (sentClock cmd minClock)
      store { q.request.entry with cmd } = some (store', out)) :
    ∀ r ∈ out, Answers tables r q := by
  intro r hr
  unfold answerPullAs at h
  split at h
  · obtain ⟨-, rfl⟩ := Prod.mk.inj (Option.some.inj h)
    cases hr
  obtain ⟨⟨res, s₁⟩, hretrieve, h⟩ := Option.bind_eq_some_iff.mp h
  obtain ⟨-, rfl⟩ := Prod.mk.inj (Option.some.inj h)
  obtain rfl := List.mem_singleton.mp hr
  obtain ⟨asked, hdecode, hretrieve⟩ := Option.bind_eq_some_iff.mp hretrieve
  obtain ⟨interval, -, hretrieve⟩ := Option.bind_eq_some_iff.mp hretrieve
  obtain ⟨⟨vals, s₂⟩, hread, hretrieve⟩ := Option.bind_eq_some_iff.mp hretrieve
  obtain ⟨rfl, -⟩ := Prod.mk.inj (Option.some.inj hretrieve)
  have hlength := length_readAll hread
  have hcode := cmd_of_decodePull hdecode
  have houtline : q.outline tables = some ⟨asked.1, vals.length, withMinClockMagic < cmd⟩ := by
    have hdecode : decodePull (tables q.kvId) (bodyCmd cmd) q.request.bin = some asked := hdecode
    simp only [Sent.outline, hpull, ← hcmd, hdecode, Bool.false_eq_true, if_false, Option.map_some,
      hlength]
  refine ⟨rfl, ?_⟩
  rw [houtline]
  unfold bodyCmd at hcode
  by_cases hclock : cmd > withMinClockMagic
  · rw [if_pos hclock] at hcode
    have hclocked : sentClock cmd minClock ≠ -1 := by
      rw [sentClock, if_pos hclock]
      omega
    have hcode : cmd = 11 ∨ cmd = 13 := by
      unfold withMinClockMagic at hclock hcode
      omega
    rw [Reply.outline, decodeReply_clock rfl hcode hclocked]
    simp [contentOutline, hclock]
  · rw [if_neg hclock] at hcode
    have hclocked : sentClock cmd minClock = -1 := if_neg hclock
    rw [Reply.outline, decodeReply_pull rfl hcode hclocked]
    simp [contentOutline, hclock]

/-- The acknowledgement of a push answers it. -/
theorem answers_pushReply {tables : ℕ → RangeTable} {q : Sent Val} (hpush : q.request.push = true)
    (cmd : ℕ) : Answers tables (pushReply q.kvId { q.request.entry with cmd }) q := by
  refine ⟨rfl, ?_⟩
  have houtline : q.outline tables = none := if_pos hpush
  rw [houtline, Reply.outline]
  simp [KVWorker.decodeReply, replyBody, pushReply, List.append_assoc, contentOutline]

/-! ## Receiving a reply -/

/-- Two states of a worker that differ in what they hold for one request. -/
structure SameBut (key : ℕ × ℕ) (w w' : KVWorker Val) : Prop where
  tracker : w'.tracker = w.tracker
  recvKvs : ∀ key', key' ≠ key → w'.recvKvs key' = w.recvKvs key'
  callbacks : ∀ key', key' ≠ key → w'.callbacks key' = w.callbacks key'
  finished : ∀ key', key' ≠ key →
    w'.finished.countP (fun d => d.1 = key') = w.finished.countP fun d => d.1 = key'

theorem SameBut.refl (key : ℕ × ℕ) (w : KVWorker Val) : SameBut key w w :=
  ⟨rfl, fun _ _ => rfl, fun _ _ => rfl, fun _ _ => rfl⟩

/-- The worker with the replies to one request recorded. -/
def withRecv (w : KVWorker Val) (key : ℕ × ℕ) (recv : Recv Val) : KVWorker Val :=
  { w with recvKvs := Function.update w.recvKvs key (some recv) }

theorem sameBut_withRecv (w : KVWorker Val) (key : ℕ × ℕ) (recv : Recv Val) :
    SameBut key w (withRecv w key recv) :=
  ⟨rfl, fun _ hne => Function.update_of_ne hne _ _, fun _ _ => rfl, fun _ _ => rfl⟩

/-- The worker once the callback of a request has run. -/
def withDest (w : KVWorker Val) (key : ℕ × ℕ) (dest : Dest Val) : KVWorker Val :=
  { w with
    recvKvs := Function.update w.recvKvs key none
    callbacks := Function.update w.callbacks key none
    finished := w.finished ++ [(key, dest)] }

@[simp] theorem recvKvs_withRecv (w : KVWorker Val) (key : ℕ × ℕ) (recv : Recv Val) :
    (withRecv w key recv).recvKvs key = some recv := Function.update_self ..

@[simp] theorem recvKvs_withDest (w : KVWorker Val) (key : ℕ × ℕ) (dest : Dest Val) :
    (withDest w key dest).recvKvs key = none := Function.update_self ..

@[simp] theorem callbacks_withDest (w : KVWorker Val) (key : ℕ × ℕ) (dest : Dest Val) :
    (withDest w key dest).callbacks key = none := Function.update_self ..

theorem countP_withDest (w : KVWorker Val) (key : ℕ × ℕ) (dest : Dest Val) :
    (withDest w key dest).finished.countP (fun d => d.1 = key) =
      w.finished.countP (fun d => d.1 = key) + 1 := by
  simp [withDest, List.countP_append]

theorem sameBut_withDest (w : KVWorker Val) (key : ℕ × ℕ) (dest : Dest Val) :
    SameBut key w (withDest w key dest) := by
  refine ⟨rfl, fun _ hne => Function.update_of_ne hne _ _, fun _ hne => Function.update_of_ne hne _ _,
    fun key' hne => ?_⟩
  simp [withDest, List.countP_append, hne.symm]

theorem SameBut.trans {key : ℕ × ℕ} {w w' w'' : KVWorker Val} (h : SameBut key w w')
    (h' : SameBut key w' w'') : SameBut key w w'' where
  tracker := h'.tracker.trans h.tracker
  recvKvs key' hne := (h'.recvKvs key' hne).trans (h.recvKvs key' hne)
  callbacks key' hne := (h'.callbacks key' hne).trans (h.callbacks key' hne)
  finished key' hne := (h'.finished key' hne).trans (h.finished key' hne)

/-- The outlines of the replies recorded for a request, if any. -/
def recorded (recv : Option (Recv Val)) : List Outline := recv.elim [] Recv.outlines

/-- The reply to a pull is recorded behind the others. -/
theorem record_eq {w : KVWorker Val} {key : ℕ × ℕ} {content : KVPairs Val × Option ℤ}
    (hkeys : content.1.keys ≠ [])
    (hkind : ∀ recv, w.recvKvs key = some recv → recv.clocked = content.2.isSome) :
    ∃ recv, w.record key (some content) = some (withRecv w key recv) ∧
      recv.clocked = content.2.isSome ∧ recv.outlines = recorded (w.recvKvs key) ++
        [⟨content.1.keys, content.1.vals.length, content.2.isSome⟩] := by
  obtain ⟨kvs, - | minClock⟩ := content
  · cases hrecv : w.recvKvs key with
    | none =>
        exact ⟨.kvs [kvs], by simp_all [KVWorker.record, KVWorker.updateKvs, withRecv], rfl, rfl⟩
    | some recv =>
        cases recv with
        | withMinClock _ => exact absurd (hkind _ hrecv) (by simp [Recv.clocked])
        | kvs l =>
            refine ⟨.kvs (l ++ [kvs]), by simp_all [KVWorker.record, KVWorker.updateKvs, withRecv],
              rfl, ?_⟩
            simp [Recv.outlines, recorded]
  · cases hrecv : w.recvKvs key with
    | none =>
        exact ⟨.withMinClock [(kvs, minClock)],
          by simp_all [KVWorker.record, KVWorker.updateKvsWithMinClock, withRecv], rfl, rfl⟩
    | some recv =>
        cases recv with
        | kvs _ => exact absurd (hkind _ hrecv) (by simp [Recv.clocked])
        | withMinClock l =>
            refine ⟨.withMinClock (l ++ [(kvs, minClock)]),
              by simp_all [KVWorker.record, KVWorker.updateKvsWithMinClock, withRecv], rfl, ?_⟩
            simp [Recv.outlines, recorded]

theorem runCallback_eq {tables : ℕ → RangeTable} {w : KVWorker Val} {key : ℕ × ℕ}
    {cb : Callback Val} {recv : Recv Val} (hcb : w.callbacks key = some cb)
    (hrecv : w.recvKvs key = some recv) :
    w.runCallback tables key = (cb.run (tables key.1) recv).map (withDest w key) := by
  simp only [KVWorker.runCallback, hcb, hrecv, Option.bind_eq_bind, Option.bind_some]
  cases cb.run (tables key.1) recv <;> rfl

/-- A reply is recorded, and the one that completes the count runs the callback. -/
theorem receive_eq {tables : ℕ → RangeTable} {w : KVWorker Val} {r : Reply Val}
    {expected counted : ℕ} (hentry : w.entry r.request = some (expected, counted))
    {content : Option (KVPairs Val × Option ℤ)}
    (hdecode : KVWorker.decodeReply (replyBody r) = some content) :
    w.receive tables (response r) = ((w.record r.request content).bind fun w' =>
      if counted + 1 = expected then w'.runCallback tables r.request else some w').map
        (r.request, ·) := by
  have hbody : response r = Cell.nat.put r.kvId ++ (Cell.nat.put r.ts ++ replyBody r) := by
    simp [response, replyBody, List.append_assoc]
  have hentry : w.entry (r.kvId, r.ts) = some (expected, counted) := hentry
  simp only [hbody, KVWorker.receive, Codec.get_put_append, Option.bind_eq_bind, Option.bind_some,
    hentry, KVWorker.uniqueProcess, hdecode, beq_iff_eq, Reply.request]
  cases w.record (r.kvId, r.ts) content with
  | none => rfl
  | some w' =>
      simp only [Option.bind_some]
      split
      · cases w'.runCallback tables (r.kvId, r.ts) <;> rfl
      · rfl

/-- A reply to a push changes nothing before it is counted. -/
theorem receive_push {tables : ℕ → RangeTable} {w : KVWorker Val} {r : Reply Val}
    {expected counted : ℕ} (hentry : w.entry r.request = some (expected, counted))
    (houtline : r.outline = some none) (hcb : w.callbacks r.request = none) :
    w.receive tables (response r) = some (r.request, w) := by
  obtain ⟨content, hdecode, hcontent⟩ := Option.map_eq_some_iff.mp houtline
  obtain rfl : content = none := Option.map_eq_none_iff.mp hcontent
  rw [receive_eq hentry hdecode]
  simp [KVWorker.record, KVWorker.runCallback, hcb]

/-- A reply to a pull that is not the last one is recorded; with the last one the callback runs. -/
theorem receive_pull (tables : ℕ → RangeTable) {w : KVWorker Val} {r : Reply Val}
    {expected counted : ℕ} (hentry : w.entry r.request = some (expected, counted)) {o : Outline}
    (houtline : r.outline = some (some o)) (hkeys : o.keys ≠ [])
    (hkind : ∀ recv, w.recvKvs r.request = some recv → recv.clocked = o.clocked)
    {cb : Callback Val} (hcb : w.callbacks r.request = some cb) :
    ∃ recv, recv.clocked = o.clocked ∧ recv.outlines = recorded (w.recvKvs r.request) ++ [o] ∧
      w.receive tables (response r) = (if counted + 1 = expected
        then (cb.run (tables r.request.1) recv).map (withDest (withRecv w r.request recv) r.request)
        else some (withRecv w r.request recv)).map (r.request, ·) := by
  obtain ⟨content, hdecode, hcontent⟩ := Option.map_eq_some_iff.mp houtline
  obtain ⟨content, rfl, rfl⟩ := Option.map_eq_some_iff.mp hcontent
  obtain ⟨recv, hrecord, hclocked, houtlines⟩ := record_eq hkeys hkind
  refine ⟨recv, hclocked, houtlines, ?_⟩
  rw [receive_eq hentry hdecode, hrecord, Option.bind_some,
    runCallback_eq (w := withRecv w r.request recv) hcb (Function.update_self ..)]

/-! ## Accounts -/

/-- The outlines of the replies to a call. -/
def expectedOf (t : RangeTable) (c : Call Val) : List (Option (Option Outline)) :=
  (c.parts t).map fun part => some (c.outline t part)

/-- The outlines of the replies to a request that are still to be received. -/
def State.expected (tables : ℕ → RangeTable) (s : State Val) (key : ℕ × ℕ) :
    Multiset (Option (Option Outline)) :=
  Multiset.ofList ((s.slices.filter fun q => q.key = key).map fun q => some (q.outline tables)) +
    Multiset.ofList ((s.replies.filter fun r => r.request = key).map Reply.outline)

theorem State.card_expected (tables : ℕ → RangeTable) (s : State Val) (key : ℕ × ℕ) :
    Multiset.card (s.expected tables key) = s.outstanding key := by
  rw [expected, outstanding, Multiset.card_add, Multiset.coe_card, Multiset.coe_card,
    List.length_map, List.length_map, List.countP_eq_length_filter, List.countP_eq_length_filter]

/-- All that the system holds for one request. -/
structure Account (Val : Type) where
  entry : Option (ℕ × ℕ)
  callback : Option (Callback Val)
  recv : Option (Recv Val)
  invoked : ℕ
  expected : Multiset (Option (Option Outline))
  counting : Bool

/-- The account of a request that was not made. -/
def Account.blank : Account Val := ⟨none, none, none, 0, 0, false⟩

/-- The system as one request sees it. -/
def State.account (tables : ℕ → RangeTable) (s : State Val) (key : ℕ × ℕ) : Account Val where
  entry := s.worker.entry key
  callback := s.worker.callbacks key
  recv := s.worker.recvKvs key
  invoked := s.invoked key
  expected := s.expected tables key
  counting := s.counting = some key

/-- The account of a request: every reply it waits for is outstanding, being counted or
counted.  A pull has recorded the replies that are no longer outstanding, and its callback runs
with the last one. -/
structure Account.Open (t : RangeTable) (c : Call Val) (a : Account Val) : Prop where
  matched : c.Matched
  balance : ∃ counted, a.entry = some ((c.parts t).length, counted) ∧
    (c.parts t).length = Multiset.card a.expected + a.counting.toNat + counted
  due : ∀ o ∈ a.expected, ∃ part ∈ c.parts t, o = some (c.outline t part)
  waiting : a.expected ≠ 0 → a.callback = c.callback ∧ a.invoked = 0
  kind : a.expected ≠ 0 → ∀ recv, a.recv = some recv → recv.clocked = c.withMinClock
  pulled : a.expected ≠ 0 → c.isPush = false →
    Multiset.ofList ((recorded a.recv).map fun o => some (some o)) + a.expected =
      Multiset.ofList (expectedOf t c)
  done : a.expected = 0 → c.CallsBack t → a.invoked = 1
  silent : ¬ c.CallsBack t → a.invoked = 0

/-- The accounts of all requests, and what has stopped the receiving thread. -/
structure Inv (tables : ℕ → RangeTable) (s : State Val) : Prop where
  accounts : ∀ key, match s.requests key with
    | none => s.account tables key = .blank
    | some api => (s.account tables key).Open (tables key.1) api.call
  stopped : s.stopped = true → ∃ key api, s.requests key = some api ∧
    ¬ api.call.CanCopy (tables key.1)

/-- Taking one item out of a list takes it out of those that satisfy `p`. -/
theorem ofList_erase {α β : Type} {l : List α} {j : ℕ} {x : α} (h : l[j]? = some x) (p : α → Bool)
    (f : α → β) : Multiset.ofList ((l.filter p).map f) =
      (if p x = true then {f x} else 0) + Multiset.ofList (((l.eraseIdx j).filter p).map f) := by
  obtain ⟨l₁, l₂, hl, herase⟩ := exists_eraseIdx h
  rw [herase, hl, List.filter_append, List.filter_append, List.filter_cons, List.map_append,
    List.map_append]
  split
  · rw [List.map_cons, Multiset.singleton_add, Multiset.cons_coe, Multiset.coe_eq_coe]
    exact List.perm_middle
  · rw [zero_add]

section Steps

variable {tables : ℕ → RangeTable} {src : ℕ} {s s' : State Val}

theorem inv_init (tables : ℕ → RangeTable) : Inv tables (.init : State Val) := by
  refine ⟨fun key => ?_, fun h => by cases h⟩
  have hentry : (KVWorker.new : KVWorker Val).entry key = none := by
    simp only [KVWorker.entry, KVWorker.new, slot_nil]
    rfl
  simp only [State.init, State.account, State.invoked, State.expected, hentry, Account.blank,
    List.filter_nil, List.map_nil, Multiset.coe_nil, add_zero, Account.mk.injEq, true_and,
    reduceCtorEq, decide_false, and_true]
  exact ⟨rfl, rfl, rfl⟩

/-- What a call does to the accounts. -/
theorem account_call {kvId : ℕ} {api : Api Val} {f : Flags}
    (h : step tables src s (.call kvId api f) = some s') :
    ∃ ts, s.worker.entry (kvId, ts) = none ∧ s'.stopped = s.stopped ∧
      s'.requests = Function.update s.requests (kvId, ts) (some api) ∧ api.call.Matched ∧
      (∀ key, key ≠ (kvId, ts) → s'.account tables key = s.account tables key) ∧
      s'.account tables (kvId, ts) = { s.account tables (kvId, ts) with
        entry := some ((api.call.parts (tables kvId)).length, 0)
        callback := api.call.callback.or (s.account tables (kvId, ts)).callback
        expected := (s.account tables (kvId, ts)).expected +
          Multiset.ofList (expectedOf (tables kvId) api.call) } := by
  obtain ⟨⟨ts, worker, messages⟩, hissue, h⟩ := Option.bind_eq_some_iff.mp h
  obtain rfl := Option.some.inj h
  obtain ⟨⟨m, g⟩, hslices, hissue⟩ := Option.bind_eq_some_iff.mp hissue
  obtain ⟨messages', hg, hissue⟩ := Option.bind_eq_some_iff.mp hissue
  simp only [Option.some.injEq, Prod.mk.injEq] at hissue
  obtain ⟨rfl, rfl, rfl⟩ := hissue
  obtain ⟨rfl, hmatched, houtlines, hmem⟩ := slices_spec hslices hg
  set ts := (slot s.worker.tracker kvId).length with hts
  have hkey : ∀ q ∈ nonemptySlices kvId messages', q.key = (kvId, ts) := by
    intro q hq
    obtain ⟨hq, -⟩ := List.mem_filter.mp hq
    obtain ⟨⟨message, i⟩, hi, hq⟩ := List.mem_filterMap.mp hq
    obtain ⟨r, rfl, rfl⟩ := Option.map_eq_some_iff.mp hq
    rw [Sent.key, hmem r (List.fst_mem_of_mem_zipIdx hi)]
  -- The new slices belong to the new request.
  have hother : ∀ key, key ≠ (kvId, ts) →
      (nonemptySlices kvId messages').filter (fun q => q.key = key) = [] := by
    intro key hne
    rw [List.filter_eq_nil_iff]
    intro q hq hq'
    exact hne ((of_decide_eq_true hq').symm.trans (hkey q hq))
  have hall : (nonemptySlices kvId messages').filter (fun q => q.key = (kvId, ts)) =
      nonemptySlices kvId messages' :=
    List.filter_eq_self.mpr fun q hq => decide_eq_true (hkey q hq)
  have hexpected : ((nonemptySlices kvId messages').map fun q => some (q.outline tables)) =
      expectedOf (tables kvId) api.call := by
    have hsome := congrArg (List.map some) houtlines
    rwa [List.map_map, List.map_map] at hsome
  have hentries : ∀ key,
      (s.worker.newRequest kvId (api.call.parts (tables kvId)).length).1.entry key =
        if key = (kvId, ts) then some ((api.call.parts (tables kvId)).length, 0)
        else s.worker.entry key :=
    s.worker.entry_newRequest kvId _
  refine ⟨ts, by simp [KVWorker.entry, hts], rfl, rfl, hmatched, ?_, ?_⟩
  · intro key hne
    have hentry := hentries key
    rw [if_neg hne] at hentry
    cases hcb : api.call.callback with
    | none =>
        simp only [State.account, State.invoked, State.expected, List.filter_append,
          hother key hne, List.append_nil, Account.mk.injEq, and_true]
        exact hentry
    | some cb =>
        simp only [State.account, State.invoked, State.expected, List.filter_append,
          hother key hne, List.append_nil, Account.mk.injEq, KVWorker.addCallback, ne_eq, hne,
          not_false_eq_true, Function.update_of_ne, and_true]
        exact hentry
  · have hentry := hentries (kvId, ts)
    rw [if_pos rfl] at hentry
    have hsum : ∀ slices replies : List (Option (Option Outline)),
        Multiset.ofList (slices ++ expectedOf (tables kvId) api.call) + Multiset.ofList replies =
          Multiset.ofList slices + Multiset.ofList replies +
            Multiset.ofList (expectedOf (tables kvId) api.call) := by
      intro slices replies
      rw [← Multiset.coe_add, add_right_comm]
    cases hcb : api.call.callback with
    | none =>
        simp only [State.account, State.invoked, State.expected, List.filter_append, hall,
          List.map_append, hexpected, hsum, Account.mk.injEq, and_true]
        exact ⟨hentry, rfl⟩
    | some cb =>
        simp only [State.account, State.invoked, State.expected, List.filter_append, hall,
          List.map_append, hexpected, hsum, Account.mk.injEq, KVWorker.addCallback,
          Function.update_self, and_true]
        exact ⟨hentry, rfl⟩

/-- An answer leaves the accounts as they are: its outline was expected before. -/
theorem account_answer {j : ℕ} {r : Reply Val} (h : step tables src s (.answer j r) = some s') :
    s'.stopped = s.stopped ∧ s'.requests = s.requests ∧
      ∀ key, s'.account tables key = s.account tables key := by
  obtain ⟨q, hq, h⟩ := Option.bind_eq_some_iff.mp h
  split at h
  · next hanswers =>
      obtain ⟨hrequest, houtline⟩ := hanswers
      obtain rfl := Option.some.inj h
      refine ⟨rfl, rfl, fun key => ?_⟩
      simp only [State.account, State.invoked, State.expected, Account.mk.injEq, true_and,
        and_true, ofList_erase hq, List.filter_append, List.map_append, ← Multiset.coe_add,
        decide_eq_true_eq]
      by_cases hkey : q.key = key
      · simp only [hrequest, hkey, List.filter_singleton, decide_true, if_true, List.map_cons,
          List.map_nil, houtline, Multiset.coe_singleton, cond_true]
        rw [add_comm {_}, add_right_comm, add_assoc]
      · simp only [hrequest, hkey, List.filter_singleton, decide_false, if_false, List.map_nil,
          Multiset.coe_nil, zero_add, add_zero, cond_false]
  · cases h

/-- A reply is taken off those that are expected. -/
theorem expected_erase (tables : ℕ → RangeTable) {s : State Val} {j : ℕ} {r : Reply Val}
    (hr : s.replies[j]? = some r) (key : ℕ × ℕ) :
    s.expected tables key = (if r.request = key then {r.outline} else 0) +
      { s with replies := s.replies.eraseIdx j }.expected tables key := by
  rw [State.expected, State.expected, ofList_erase hr, add_left_comm]
  simp only [decide_eq_true_eq]

/-- The state once the receiving thread has taken a reply. -/
def State.arrived (s : State Val) (j : ℕ) (key : ℕ × ℕ) (worker : KVWorker Val) (stopped : Bool) :
    State Val :=
  { s with worker, replies := s.replies.eraseIdx j, counting := some key, stopped }

/-- Handling a reply changes what the worker holds for its request only. -/
theorem account_arrived_of_ne {j : ℕ} {r : Reply Val} (hr : s.replies[j]? = some r)
    (hidle : s.counting = none) {worker : KVWorker Val} (hframe : SameBut r.request s.worker worker)
    (stopped : Bool) {key : ℕ × ℕ} (hne : key ≠ r.request) :
    (s.arrived j r.request worker stopped).account tables key = s.account tables key := by
  have hexpected := expected_erase tables hr key
  rw [if_neg hne.symm, zero_add] at hexpected
  simp only [State.account, State.arrived, Account.mk.injEq, KVWorker.entry, hframe.tracker,
    hframe.recvKvs key hne, hframe.callbacks key hne, State.invoked, hframe.finished key hne,
    hexpected, hidle, Option.some.injEq, hne.symm, reduceCtorEq, true_and, and_true]
  rfl

/-- The account of the request a reply belongs to. -/
theorem account_arrived {j : ℕ} {key : ℕ × ℕ} {worker : KVWorker Val}
    (hframe : SameBut key s.worker worker) (stopped : Bool) :
    (s.arrived j key worker stopped).account tables key =
      { entry := s.worker.entry key
        callback := worker.callbacks key
        recv := worker.recvKvs key
        invoked := worker.finished.countP fun d => d.1 = key
        expected := { s with replies := s.replies.eraseIdx j }.expected tables key
        counting := true } := by
  simp only [State.account, State.arrived, KVWorker.entry, hframe.tracker, Account.mk.injEq,
    decide_true, true_and, and_true]
  exact ⟨rfl, rfl⟩

/-- What a count does to the accounts. -/
theorem account_count (h : step tables src s .count = some s') :
    ∃ key, s.counting = some key ∧ s'.stopped = false ∧ s'.requests = s.requests ∧
      (∀ key', key' ≠ key → s'.account tables key' = s.account tables key') ∧
      s'.account tables key = { s.account tables key with
        entry := (s.account tables key).entry.map fun e => (e.1, e.2 + 1)
        counting := false } := by
  simp only [step] at h
  split at h
  · cases h
  next hstopped =>
  obtain ⟨key, hkey, h⟩ := Option.bind_eq_some_iff.mp h
  obtain rfl := Option.some.inj h
  refine ⟨key, hkey, by simpa using hstopped, rfl, ?_, ?_⟩
  · intro key' hne
    simp only [State.account, s.worker.entry_countResponse key key', if_neg hne]
    simp [State.invoked, State.expected, KVWorker.countResponse, hkey, hne.symm]
  · simp only [State.account, s.worker.entry_countResponse key key, if_true]
    simp [State.invoked, State.expected, KVWorker.countResponse]

/-! ## Every step keeps the accounts -/

namespace Account.Open

variable {t : RangeTable} {c : Call Val} {a : Account Val} {o : Option (Option Outline)}
  {rest : Multiset (Option (Option Outline))}

/-- A request that has just been made. -/
theorem made (t : RangeTable) (hmatched : c.Matched) :
    ({ Account.blank with
        entry := some ((c.parts t).length, 0)
        callback := c.callback.or none
        expected := 0 + Multiset.ofList (expectedOf t c) } : Account Val).Open t c where
  matched := hmatched
  balance := ⟨0, rfl, by simp [Account.blank, expectedOf]⟩
  due o ho := by
    rw [zero_add, Multiset.mem_coe] at ho
    obtain ⟨part, hpart, rfl⟩ := List.mem_map.mp ho
    exact ⟨part, hpart, rfl⟩
  waiting _ := ⟨Option.or_none, rfl⟩
  kind _ _ hrecv := by cases hrecv
  pulled _ _ := by simp [Account.blank, recorded]
  done hzero hcalls := by
    rw [zero_add, Multiset.coe_eq_zero] at hzero
    exact absurd (List.map_eq_nil_iff.mp hzero) hcalls.2.1
  silent _ := rfl

theorem balance_arrive (h : a.Open t c) (hidle : a.counting = false)
    (hexpected : a.expected = {o} + rest) : ∃ counted, a.entry = some ((c.parts t).length, counted) ∧
      (c.parts t).length = Multiset.card rest + true.toNat + counted := by
  obtain ⟨counted, hentry, hlength⟩ := h.balance
  refine ⟨counted, hentry, ?_⟩
  rw [hexpected, hidle, Multiset.card_add, Multiset.card_singleton, Bool.toNat_false] at hlength
  rw [Bool.toNat_true]
  omega

theorem ne_zero (hexpected : a.expected = {o} + rest) : a.expected ≠ 0 := by
  rw [hexpected, Multiset.singleton_add]
  exact Multiset.cons_ne_zero

theorem due_rest (h : a.Open t c) (hexpected : a.expected = {o} + rest) :
    ∀ o ∈ rest, ∃ part ∈ c.parts t, o = some (c.outline t part) := fun o' ho' =>
  h.due o' (by rw [hexpected]; exact Multiset.mem_add.mpr (.inr ho'))

/-- The reply to a push. -/
theorem arrive_push (h : a.Open t c) (hidle : a.counting = false)
    (hexpected : a.expected = {o} + rest) (hpush : c.isPush = true) :
    ({ a with expected := rest, counting := true } : Account Val).Open t c where
  matched := h.matched
  balance := h.balance_arrive hidle hexpected
  due := h.due_rest hexpected
  waiting _ := h.waiting (ne_zero hexpected)
  kind _ := h.kind (ne_zero hexpected)
  pulled _ hpull := absurd (hpull.symm.trans hpush) Bool.false_ne_true
  done _ hcalls := absurd (hcalls.1.symm.trans hpush) Bool.false_ne_true
  silent := h.silent

/-- A reply to a pull that is not the last one. -/
theorem arrive_pull (h : a.Open t c) (hidle : a.counting = false) {part : List ℕ}
    (hexpected : a.expected = {some (c.outline t part)} + rest) (hrest : rest ≠ 0)
    {out : Outline} (hout : c.outline t part = some out) {recv : Recv Val}
    (hclocked : recv.clocked = c.withMinClock)
    (houtlines : recv.outlines = recorded a.recv ++ [out]) :
    ({ a with recv := some recv, expected := rest, counting := true } : Account Val).Open t c where
  matched := h.matched
  balance := h.balance_arrive hidle hexpected
  due := h.due_rest hexpected
  waiting _ := h.waiting (ne_zero hexpected)
  kind _ recv' hrecv' := Option.some.inj hrecv' ▸ hclocked
  pulled _ hpull := by
    have hpulled := h.pulled (ne_zero hexpected) hpull
    rw [hexpected, hout, ← add_assoc] at hpulled
    rw [← hpulled]
    change Multiset.ofList (recv.outlines.map _) + rest = _
    rw [houtlines, List.map_append, ← Multiset.coe_add]
    rfl
  done hzero := absurd hzero hrest
  silent := h.silent

/-- The last reply to a pull whose callback can copy what it gets. -/
theorem arrive_last (h : a.Open t c) (hidle : a.counting = false) (hexpected : a.expected = {o} + 0)
    (hcan : c.CanCopy t) (hpull : c.isPush = false) :
    ({ a with callback := none, recv := none, invoked := a.invoked + 1, expected := 0
              counting := true } : Account Val).Open t c where
  matched := h.matched
  balance := h.balance_arrive hidle hexpected
  due _ ho := absurd ho (Multiset.notMem_zero _)
  waiting hne := absurd rfl hne
  kind hne := absurd rfl hne
  pulled hne := absurd rfl hne
  done _ _ := by rw [(h.waiting (ne_zero hexpected)).2]
  silent hsilent := by
    obtain ⟨part, hpart, -⟩ := h.due o (by simp [hexpected])
    exact absurd ⟨hpull, List.ne_nil_of_mem hpart, hcan⟩ hsilent

/-- The last reply to a pull whose callback cannot. -/
theorem arrive_stuck (h : a.Open t c) (hidle : a.counting = false)
    (hexpected : a.expected = {o} + 0) (hcannot : ¬ c.CanCopy t) :
    ({ a with expected := 0, counting := true } : Account Val).Open t c where
  matched := h.matched
  balance := h.balance_arrive hidle hexpected
  due _ ho := absurd ho (Multiset.notMem_zero _)
  waiting hne := absurd rfl hne
  kind hne := absurd rfl hne
  pulled hne := absurd rfl hne
  done _ hcalls := absurd hcalls.2.2 hcannot
  silent := h.silent

/-- The reply is counted. -/
theorem count (h : a.Open t c) (hcounting : a.counting = true) :
    ({ a with entry := a.entry.map fun e => (e.1, e.2 + 1), counting := false } :
      Account Val).Open t c where
  matched := h.matched
  balance := by
    obtain ⟨counted, hentry, hlength⟩ := h.balance
    rw [hcounting, Bool.toNat_true] at hlength
    refine ⟨counted + 1, by rw [hentry]; rfl, ?_⟩
    change (c.parts t).length = Multiset.card a.expected + 0 + (counted + 1)
    omega
  due := h.due
  waiting := h.waiting
  kind := h.kind
  pulled := h.pulled
  done := h.done
  silent := h.silent

/-- With the last reply to a pull the replies of all parts are recorded. -/
theorem all_recorded (h : a.Open t c) (hpull : c.isPush = false) {out : Outline}
    (hexpected : a.expected = {some (some out)} + 0) :
    ((recorded a.recv ++ [out]).map some).Perm ((c.parts t).map (c.outline t)) := by
  have hpulled := h.pulled (ne_zero hexpected) hpull
  rw [hexpected, add_zero] at hpulled
  have hperm : ((recorded a.recv ++ [out]).map fun o => some (some o)).Perm (expectedOf t c) := by
    rw [List.map_append]
    exact Multiset.coe_eq_coe.mp hpulled
  have hjoin := hperm.map fun o : Option (Option Outline) => o.getD none
  rwa [List.map_map, expectedOf, List.map_map] at hjoin

end Account.Open

/-- The account of a request stays open, whoever moves. -/
theorem accounts_of_account (h : Inv tables s) (key : ℕ × ℕ) (api : Api Val)
    (hrequests : ∀ key', key' ≠ key → s'.requests key' = s.requests key')
    (hother : ∀ key', key' ≠ key → s'.account tables key' = s.account tables key')
    (hapi : s'.requests key = some api)
    (hopen : (s'.account tables key).Open (tables key.1) api.call) (key' : ℕ × ℕ) :
    match s'.requests key' with
    | none => s'.account tables key' = .blank
    | some api => (s'.account tables key').Open (tables key'.1) api.call := by
  by_cases hkey : key' = key
  · subst hkey
    rw [hapi]
    exact hopen
  · rw [hrequests key' hkey, hother key' hkey]
    exact h.accounts key'

theorem Inv.opened (h : Inv tables s) {key : ℕ × ℕ} {api : Api Val}
    (hapi : s.requests key = some api) :
    (s.account tables key).Open (tables key.1) api.call := by
  have hkey := h.accounts key
  rwa [hapi] at hkey

/-- A request with something in its account was made. -/
theorem Inv.exists_api (h : Inv tables s) (key : ℕ × ℕ) (hne : s.account tables key ≠ .blank) :
    ∃ api, s.requests key = some api := by
  have hkey := h.accounts key
  cases hapi : s.requests key with
  | some api => exact ⟨api, rfl⟩
  | none =>
      rw [hapi] at hkey
      exact absurd hkey hne

theorem Inv.requests_of_entry (h : Inv tables s) {key : ℕ × ℕ} (hentry : s.worker.entry key = none) :
    s.requests key = none := by
  have hkey := h.accounts key
  cases hapi : s.requests key with
  | none => rfl
  | some api =>
      rw [hapi] at hkey
      obtain ⟨counted, hsome, -⟩ := hkey.balance
      exact absurd (hentry.symm.trans hsome) (by simp)

/-- **What the receiving thread does with a reply**: it handles the reply, and the account of the
request stays open, or it fails in a callback that cannot copy what has come. -/
theorem Inv.arrive (h : Inv tables s) (hidle : s.counting = none) {j : ℕ} {r : Reply Val}
    (hr : s.replies[j]? = some r) : ∃ api, s.requests r.request = some api ∧
      ((∃ worker, s.worker.receive tables (response r) = some (r.request, worker) ∧
          SameBut r.request s.worker worker ∧
          ((s.arrived j r.request worker s.stopped).account tables r.request).Open
            (tables r.request.1) api.call) ∨
        s.worker.receive tables (response r) = none ∧ ¬ api.call.CanCopy (tables r.request.1) ∧
          ((s.arrived j r.request s.worker true).account tables r.request).Open
            (tables r.request.1) api.call) := by
  set rest := { s with replies := s.replies.eraseIdx j }.expected tables r.request with hrest
  have hexpected : (s.account tables r.request).expected = {r.outline} + rest := by
    have herase := expected_erase tables hr r.request
    rwa [if_pos rfl] at herase
  obtain ⟨api, hapi⟩ := h.exists_api r.request fun hblank => by
    rw [hblank] at hexpected
    exact Account.Open.ne_zero hexpected rfl
  refine ⟨api, hapi, ?_⟩
  have hopen := h.opened hapi
  have hcounting : (s.account tables r.request).counting = false := by simp [State.account, hidle]
  obtain ⟨part, hpart, houtline⟩ := hopen.due r.outline (by simp [hexpected])
  obtain ⟨counted, hentry, hlength⟩ := hopen.balance
  rw [hexpected, hcounting, Multiset.card_add, Multiset.card_singleton, Bool.toNat_false] at hlength
  obtain ⟨hcallback, hinvoked⟩ := hopen.waiting (Account.Open.ne_zero hexpected)
  have hlast : counted + 1 = (api.call.parts (tables r.request.1)).length ↔ rest = 0 := by
    rw [← Multiset.card_eq_zero]
    omega
  cases hpush : api.call.isPush with
  | true =>
      have hnone : s.worker.callbacks r.request = none :=
        hcallback.trans ((isPush_iff_callback _).mpr hpush)
      have houtline : r.outline = some none := by rw [houtline, Call.outline, if_pos hpush]
      refine .inl ⟨s.worker, receive_push hentry houtline hnone, .refl _ _, ?_⟩
      rw [account_arrived (.refl _ _)]
      exact hopen.arrive_push hcounting hexpected hpush
  | false =>
      obtain ⟨cb, hcb⟩ : ∃ cb, api.call.callback = some cb := by
        rw [← Option.ne_none_iff_exists']
        intro hnone
        rw [isPush_iff_callback, hpush] at hnone
        cases hnone
      obtain ⟨out, hout, hkeys, hclock⟩ : ∃ out, api.call.outline (tables r.request.1) part = some out ∧
          out.keys = part ∧ out.clocked = api.call.withMinClock :=
        ⟨_, by rw [Call.outline, hpush, if_neg Bool.false_ne_true], rfl, rfl⟩
      obtain ⟨recv, hclocked, houtlines, hreceive⟩ := receive_pull tables hentry
        (houtline.trans (congrArg some hout)) (hkeys ▸ Call.ne_nil_of_mem_parts hpart)
        (fun recv hrecv => (hopen.kind (Account.Open.ne_zero hexpected) recv hrecv).trans
          hclock.symm) (hcallback.trans hcb)
      rw [houtline] at hexpected
      by_cases hzero : rest = 0
      · rw [if_pos (hlast.mpr hzero)] at hreceive
        rw [hzero] at hexpected
        have hall := houtlines ▸ hopen.all_recorded hpush (hout ▸ hexpected)
        have hrun := Callback.run_isSome_iff hcb hopen.matched (hclocked.trans hclock) hall
        by_cases hcan : api.call.CanCopy (tables r.request.1)
        · obtain ⟨dest, hdest⟩ := Option.isSome_iff_exists.mp (hrun.mpr hcan)
          have hdest : cb.run (tables r.request.1) recv = some dest := hdest
          rw [hdest, Option.map_some, Option.map_some] at hreceive
          have hframe := (sameBut_withRecv s.worker r.request recv).trans
            (sameBut_withDest (withRecv s.worker r.request recv) r.request dest)
          refine .inl ⟨_, hreceive, hframe, ?_⟩
          rw [account_arrived hframe, callbacks_withDest, recvKvs_withDest, countP_withDest, ← hrest,
            hzero]
          exact hopen.arrive_last hcounting hexpected hcan hpush
        · have hnone : cb.run (tables r.request.1) recv = none :=
            Option.not_isSome_iff_eq_none.mp fun hsome => hcan (hrun.mp hsome)
          rw [hnone] at hreceive
          refine .inr ⟨hreceive, hcan, ?_⟩
          rw [account_arrived (.refl _ _), ← hrest, hzero]
          exact hopen.arrive_stuck hcounting hexpected hcan
      · rw [if_neg fun hcount => hzero (hlast.mp hcount)] at hreceive
        have hframe := sameBut_withRecv s.worker r.request recv
        refine .inl ⟨_, hreceive, hframe, ?_⟩
        rw [account_arrived hframe, recvKvs_withRecv]
        exact hopen.arrive_pull hcounting hexpected hzero hout (hclocked.trans hclock) houtlines

/-- **Every step keeps the accounts.** -/
theorem inv_step (h : Inv tables s) {a : Act Val} (hstep : step tables src s a = some s') :
    Inv tables s' := by
  cases a with
  | call kvId api f =>
      obtain ⟨ts, hfresh, hstopped, hrequests, hmatched, hother, haccount⟩ := account_call hstep
      have hnone := h.requests_of_entry hfresh
      have hblank := h.accounts (kvId, ts)
      rw [hnone] at hblank
      refine ⟨accounts_of_account h (kvId, ts) api (fun key hne => ?_) hother ?_ ?_, ?_⟩
      · rw [hrequests, Function.update_of_ne hne]
      · rw [hrequests, Function.update_self]
      · rw [haccount, hblank]
        exact .made _ hmatched
      · intro hstop
        rw [hstopped] at hstop
        obtain ⟨key, api', hapi', hcannot⟩ := h.stopped hstop
        refine ⟨key, api', ?_, hcannot⟩
        rw [hrequests, Function.update_of_ne, hapi']
        rintro rfl
        exact absurd (hnone.symm.trans hapi') (by simp)
  | answer j r =>
      obtain ⟨hstopped, hrequests, haccount⟩ := account_answer hstep
      refine ⟨fun key => ?_, ?_⟩
      · rw [hrequests, haccount]
        exact h.accounts key
      · rw [hstopped, hrequests]
        exact h.stopped
  | arrive j =>
      have hidle : s.counting = none := by
        cases hcounting : s.counting with
        | none => rfl
        | some key => simp [step, hcounting] at hstep
      simp only [step, hidle, Option.isSome_none, Bool.false_eq_true, if_false,
        Option.bind_eq_bind] at hstep
      obtain ⟨r, hr, hstep⟩ := Option.bind_eq_some_iff.mp hstep
      obtain ⟨api, hapi, ⟨worker, hreceive, hframe, hopen⟩ | ⟨hreceive, hcannot, hopen⟩⟩ :=
        h.arrive hidle hr
      · rw [hreceive] at hstep
        obtain rfl := Option.some.inj hstep
        refine ⟨accounts_of_account h r.request api (fun _ _ => rfl)
          (fun key hne => account_arrived_of_ne hr hidle hframe s.stopped hne) hapi hopen, ?_⟩
        exact h.stopped
      · rw [hreceive] at hstep
        obtain rfl := Option.some.inj hstep
        refine ⟨accounts_of_account h r.request api (fun _ _ => rfl)
          (fun key hne => account_arrived_of_ne hr hidle (.refl _ _) true hne) hapi hopen,
          fun _ => ⟨r.request, api, hapi, hcannot⟩⟩
  | count =>
      obtain ⟨key, hcounting, hstopped, hrequests, hother, haccount⟩ :=
        account_count hstep
      have hcounted : (s.account tables key).counting = true := by simp [State.account, hcounting]
      obtain ⟨api, hapi⟩ := h.exists_api key fun hblank => by
        simp [hblank, Account.blank] at hcounted
      have hopen := h.opened hapi
      refine ⟨accounts_of_account h key api (fun key' _ => by rw [hrequests]) hother
        (by rw [hrequests, hapi]) ?_, fun hstop => ?_⟩
      · rw [haccount]
        exact hopen.count hcounted
      · rw [hstopped] at hstop
        cases hstop

theorem inv_reach (h : Reach tables src s) : Inv tables s := by
  induction h with
  | init => exact inv_init tables
  | next a _ hstep ih => exact inv_step ih hstep

end Steps

/-! ## Which requests run their callback -/

/-- Two servers, nine keys in chunks of two. -/
def twoServers (_ : ℕ) : RangeTable := setMaxKeyAndChunkSize 2 9 2

/-- A pull of a key of either server, answered and arriving in reverse order. -/
def reversePull : List (Act ℤ) :=
  [.call 0 (.zPull [1, 7]) ⟨true, false, true, fun _ => false⟩,
    .answer 1 ⟨0, 0, 0, false, 3, ⟨[7], [17]⟩, -1⟩, .answer 0 ⟨0, 0, 0, false, 3, ⟨[1], [1]⟩, -1⟩,
    .arrive 0, .count, .arrive 0, .count]

/-- One server, ten keys in chunks of three: the last chunk has one key. -/
def oneServer (_ : ℕ) : RangeTable := setMaxKeyAndChunkSize 1 10 3

/-- The last chunk named twice: the second copy would start behind the two values that come, and the
receiving thread ends in the callback before it has called anything. -/
example : (steps oneServer 3 .init ([.call 0 (.pullChunks [3, 3] [[], []])
    ⟨true, false, true, fun _ => false⟩, .answer 0 ⟨0, 0, 1, false, 3, ⟨[3, 3], [5, 5]⟩, -1⟩,
    .arrive 0] : List (Act ℤ))).map (fun s =>
      (s.stopped, s.outstanding (0, 0), s.invoked (0, 0), (step oneServer 3 s .count).isSome)) =
    some (true, 0, 0, false) := rfl

/-- A push of one key, answered and counted. -/
def onePush : List (Act ℤ) :=
  [.call 0 (.push [0] [7]) ⟨true, false, true, fun _ => false⟩,
    .answer 0 ⟨0, 0, 0, true, 3, .empty, -1⟩, .arrive 0, .count]

end Completion

end FlexPS.KVStore
