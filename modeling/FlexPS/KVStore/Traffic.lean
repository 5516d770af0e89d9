import FlexPS.KVStore.Exchange
import FlexPS.KVStore.PullSystem

/-!
# What an event leaves alone

A request of the worker is known by its store and timestamp.  The traces it leaves in the
world are its tracker entry, its recorded replies, its callback, what the callback left in
memory and its replies on the way.  An event changes the traces of one request only, as long
as the servers of the store park nothing.

## Main definitions

* `header` — the request a reply belongs to.
* `Trace`, `World.trace` — the world as one request sees it.
* `worldStep_trace` — the frame rule of an event.
* `Fresh` — a request that was not made has left no trace.
-/

namespace FlexPS.KVStore

open Lib

variable {Val : Type}

/-! ## Headers -/

/-- Store and timestamp of a reply. -/
def header (bin : BinStream Val) : Option (ℕ × ℕ) := do
  let (kvId, bin) ← Cell.nat.get bin
  let (ts, _) ← Cell.nat.get bin
  some (kvId, ts)

@[simp] theorem header_response (r : Reply Val) : header (response r) = some (r.kvId, r.ts) := by
  simp [header, response, List.append_assoc]

namespace KVWorker

/-- What the worker has left in memory for a request. -/
def results (w : KVWorker Val) (key : ℕ × ℕ) : List (Dest Val) :=
  (w.finished.filter fun d => d.1 = key).map Prod.snd

/-- The worker after a reply, for all other requests. -/
structure SameFor (key : ℕ × ℕ) (w w' : KVWorker Val) : Prop where
  tracker : w'.tracker = w.tracker
  recvKvs : w'.recvKvs key = w.recvKvs key
  callbacks : w'.callbacks key = w.callbacks key
  results : w'.results key = w.results key

theorem SameFor.refl (key : ℕ × ℕ) (w : KVWorker Val) : SameFor key w w := ⟨rfl, rfl, rfl, rfl⟩

theorem SameFor.trans {key : ℕ × ℕ} {w₁ w₂ w₃ : KVWorker Val} (h : SameFor key w₁ w₂)
    (h' : SameFor key w₂ w₃) : SameFor key w₁ w₃ :=
  ⟨h'.tracker.trans h.tracker, h'.recvKvs.trans h.recvKvs, h'.callbacks.trans h.callbacks,
    h'.results.trans h.results⟩

theorem sameFor_record {w w' : KVWorker Val} {key key' : ℕ × ℕ} (hne : key ≠ key')
    {content : Option (KVPairs Val × Option ℤ)} (h : w.record key' content = some w') :
    SameFor key w w' := by
  have hset : ∀ recv, SameFor key w
      { w with recvKvs := Function.update w.recvKvs key' (some recv) } := fun recv =>
    ⟨rfl, Function.update_of_ne hne _ _, rfl, rfl⟩
  unfold record at h
  split at h
  · obtain rfl := Option.some.inj h
    exact .refl key w
  · unfold updateKvs at h
    split at h
    · obtain rfl := Option.some.inj h
      exact hset _
    · cases h
  · unfold updateKvsWithMinClock at h
    split at h
    · obtain rfl := Option.some.inj h
      exact hset _
    · cases h

theorem sameFor_runCallback {tables : ℕ → RangeTable} {w w' : KVWorker Val} {key key' : ℕ × ℕ}
    (hne : key ≠ key') (h : w.runCallback tables key' = some w') : SameFor key w w' := by
  unfold runCallback at h
  split at h
  · obtain rfl := Option.some.inj h
    exact .refl key w
  · simp only [Option.bind_eq_bind, Option.bind_eq_some_iff, Option.some.injEq] at h
    obtain ⟨recv, -, dest, -, rfl⟩ := h
    refine ⟨rfl, Function.update_of_ne hne _ _, Function.update_of_ne hne _ _, ?_⟩
    simp [results, hne.symm]

/-- **A reply is about the request in its header**, which was made; all other requests see no
difference. -/
theorem receive_frame {tables : ℕ → RangeTable} {w w' : KVWorker Val} {bin : BinStream Val}
    {key' : ℕ × ℕ} (h : w.receive tables bin = some (key', w')) :
    header bin = some key' ∧ (∃ e, w.entry key' = some e) ∧
      ∀ key, key ≠ key' → SameFor key w w' := by
  simp only [receive, Option.bind_eq_bind, Option.bind_eq_some_iff, Option.some.injEq,
    Prod.mk.injEq] at h
  obtain ⟨⟨kvId, bin₁⟩, hkv, ⟨ts, bin₂⟩, hts, e, hentry, w₁, hprocess, rfl, rfl⟩ := h
  refine ⟨by simp [header, hkv, hts], ⟨e, hentry⟩, fun key hne => ?_⟩
  simp only [uniqueProcess, Option.bind_eq_bind, Option.bind_eq_some_iff] at hprocess
  obtain ⟨content, -, w₂, hrecord, hrun⟩ := hprocess
  refine (sameFor_record hne hrecord).trans ?_
  split at hrun
  · exact sameFor_runCallback hne hrun
  · obtain rfl := Option.some.inj hrun
    exact .refl key w₂

end KVWorker

/-! ## Replies of servers -/

section Servers

variable {S : Type} [StorageT S Val] {t : RangeTable} {kvId serverId : ℕ} {isVector : Bool}

theorem applyPush_kvId [Add Val] {isAssign : Bool} {s s' : S} {b : Blocked Val}
    {out : List (Reply Val)} (h : applyPush t kvId serverId isVector isAssign s b = some (s', out)) :
    ∀ r ∈ out, r.kvId = kvId := by
  unfold applyPush at h
  split at h
  · simp only [Option.some.injEq, Prod.mk.injEq] at h
    simp [← h.2]
  · simp only [Option.bind_eq_bind, Option.bind_eq_some_iff, Option.some.injEq,
      Prod.mk.injEq] at h
    obtain ⟨s₁, -, -, rfl⟩ := h
    simp

theorem answerPullAs_kvId {bodyCmd : ℕ} {minClock : ℤ} {s s' : S} {b : Blocked Val}
    {out : List (Reply Val)}
    (h : answerPullAs t kvId serverId isVector bodyCmd minClock s b = some (s', out)) :
    ∀ r ∈ out, r.kvId = kvId := by
  unfold answerPullAs at h
  split at h
  · simp only [Option.some.injEq, Prod.mk.injEq] at h
    simp [← h.2]
  · simp only [Option.bind_eq_bind, Option.bind_eq_some_iff, Option.some.injEq,
      Prod.mk.injEq] at h
    obtain ⟨s₁, -, -, rfl⟩ := h
    simp

variable [Add Val]

theorem serveDirect_kvId {isAssign : Bool} {s s' : S} {r : Request Val} {out : List (Reply Val)}
    (h : serveDirect t kvId serverId isVector isAssign s r = some (s', out)) :
    ∀ y ∈ out, y.kvId = kvId := by
  unfold serveDirect at h
  split at h
  · exact applyPush_kvId h
  · exact answerPullAs_kvId h

namespace SSPServer

theorem releaseClock_kvId {srv srv' : SSPServer S Val} {out : List (Reply Val)}
    (h : srv.releaseClock t kvId = some (srv', out)) : ∀ y ∈ out, y.kvId = kvId := by
  simp only [releaseClock, Option.bind_eq_bind, Option.bind_eq_some_iff, Option.some.injEq,
    Prod.mk.injEq] at h
  obtain ⟨⟨s₁, pushed⟩, hpushed, ⟨s₂, pulled⟩, hpulled, -, rfl⟩ := h
  intro y hy
  rcases List.mem_append.mp hy with hy | hy
  · obtain ⟨_, -, hkv⟩ := run_outputs (Q := fun _ y => y.kvId = kvId)
      (fun h => applyPush_kvId h) hpushed y hy
    exact hkv
  · obtain ⟨_, -, hkv⟩ := run_outputs (Q := fun _ y => y.kvId = kvId)
      (fun h => answerPullAs_kvId h) hpulled y hy
    exact hkv

theorem handlePush_kvId {srv srv' : SSPServer S Val} {r : Request Val} {out : List (Reply Val)}
    (h : srv.handlePush t kvId r = some (srv', out)) : ∀ y ∈ out, y.kvId = kvId := by
  unfold handlePush at h
  simp only at h
  split at h
  · simp only [processPush, Option.bind_eq_bind, Option.bind_eq_some_iff] at h
    obtain ⟨⟨s₁, pushed⟩, hpushed, count, -, h⟩ := h
    have hkv := applyPush_kvId hpushed
    split at h
    · simp only [Option.bind_eq_some_iff, Option.some.injEq, Prod.mk.injEq] at h
      obtain ⟨⟨srv₁, released⟩, hreleased, -, rfl⟩ := h
      intro y hy
      rcases List.mem_append.mp hy with hy | hy
      · exact hkv y hy
      · exact releaseClock_kvId hreleased y hy
    · obtain ⟨-, rfl⟩ := Prod.mk.inj (Option.some.inj h)
      exact hkv
  · obtain ⟨-, rfl⟩ := Prod.mk.inj (Option.some.inj h)
    simp

theorem handle_kvId {srv srv' : SSPServer S Val} {r : Request Val} {out : List (Reply Val)}
    (h : srv.handle t kvId r = some (srv', out)) : ∀ y ∈ out, y.kvId = kvId := by
  unfold handle at h
  split at h
  · unfold handleInit at h
    split at h
    · simp only [Option.bind_eq_bind, Option.bind_eq_some_iff, Option.some.injEq] at h
      obtain ⟨_, -, h⟩ := h
      obtain ⟨-, rfl⟩ := Prod.mk.inj h
      simp
    · obtain ⟨-, rfl⟩ := Prod.mk.inj (Option.some.inj h)
      simp
  split at h
  · simp only [Option.bind_eq_bind, Option.bind_eq_some_iff, Option.some.injEq,
      Prod.mk.injEq] at h
    obtain ⟨⟨s₁, out₁⟩, hserve, -, rfl⟩ := h
    exact serveDirect_kvId hserve
  split at h
  · exact handlePush_kvId h
  · unfold handlePull at h
    simp only at h
    split at h
    · simp only [Option.bind_eq_bind, Option.bind_eq_some_iff, Option.some.injEq,
        Prod.mk.injEq] at h
      obtain ⟨⟨s₁, out₁⟩, hanswer, -, rfl⟩ := h
      exact answerPullAs_kvId hanswer
    · obtain ⟨-, rfl⟩ := Prod.mk.inj (Option.some.inj h)
      simp

end SSPServer

namespace Server

/-- What a server does with a message: it keeps its family, replies for its store, and a
default server replies to the sender of the message only. -/
theorem receive_spec {a a' : Server S Val} {m : Option (Request Val)} {out : List (Reply Val)}
    (h : a.receive t kvId m = some (a', out)) :
    a'.isSSP = a.isSSP ∧ (∀ y ∈ out, y.kvId = kvId) ∧
      (a.isSSP = false → ∀ y ∈ out, ∃ r, m = some r ∧ y.key = r.key) := by
  cases m with
  | none =>
      obtain ⟨rfl, rfl⟩ := Prod.mk.inj (Option.some.inj h)
      simp
  | some r =>
      cases a with
      | default srv =>
          obtain ⟨⟨srv', out'⟩, hhandle, hres⟩ := Option.map_eq_some_iff.mp h
          obtain ⟨rfl, rfl⟩ := Prod.mk.inj hres
          unfold DefaultUpdateServer.handle at hhandle
          split at hhandle
          · cases hhandle
          simp only [Option.bind_eq_bind, Option.bind_eq_some_iff, Option.some.injEq,
            Prod.mk.injEq] at hhandle
          obtain ⟨⟨s₁, out₁⟩, hserve, -, rfl⟩ := hhandle
          exact ⟨rfl, serveDirect_kvId hserve, fun _ y hy => ⟨r, rfl, serveDirect_key hserve y hy⟩⟩
      | ssp srv =>
          obtain ⟨⟨srv', out'⟩, hhandle, hres⟩ := Option.map_eq_some_iff.mp h
          obtain ⟨rfl, rfl⟩ := Prod.mk.inj hres
          exact ⟨rfl, SSPServer.handle_kvId hhandle, fun hssp => by cases hssp⟩

end Server

end Servers

/-! ## Messages of calls -/

theorem ts_of_mem_send_ {src ts : ℕ} {push : Bool} {sliced : List (Bool × KVPairs Val)} {f : Flags}
    {r : Request Val} (hr : some r ∈ send_ src ts push sliced f) : r.ts = ts ∧ r.src = src := by
  obtain ⟨⟨⟨nonempty, kvs⟩, i⟩, -, hr⟩ := List.mem_map.mp hr
  simp only at hr
  split at hr
  · cases hr
  · obtain rfl := Option.some.inj hr
    exact ⟨rfl, rfl⟩

theorem ts_of_mem_sendChunks_ {src ts : ℕ} {push : Bool} {chunkIds : List ℕ}
    {chunks : List (List Val)} {pos : List ℕ} {f : Flags} {withMinClock : Bool}
    {messages : List (Option (Request Val))}
    (h : sendChunks_ src ts push chunkIds chunks pos f withMinClock = some messages)
    {r : Request Val} (hr : some r ∈ messages) : r.ts = ts ∧ r.src = src := by
  unfold sendChunks_ at h
  split at h
  · cases h
  · obtain rfl := Option.some.inj h
    obtain ⟨⟨⟨a, b⟩, i⟩, -, hr⟩ := List.mem_map.mp hr
    simp only at hr
    split at hr
    · cases hr
    · obtain rfl := Option.some.inj hr
      exact ⟨rfl, rfl⟩

/-- All messages of a call carry its timestamp and its sender. -/
theorem ts_of_mem_slices {t : RangeTable} {src wait ts : ℕ} {f : Flags} {c : Call Val}
    {g : ℕ → Option (List (Option (Request Val)))} (h : c.slices t src f = some (wait, g))
    {messages : List (Option (Request Val))} (hg : g ts = some messages) {r : Request Val}
    (hr : some r ∈ messages) : r.ts = ts ∧ r.src = src := by
  -- The two chunk pulls and the chunk push slice in the same way.
  have hchunks : ∀ {chunkIds : List ℕ} {chunks vals : List (List Val)} {push : Bool} {f : Flags}
      {withMinClock : Bool}, (if chunkIds.length ≠ chunks.length then none
        else (partitionChunks_ t chunkIds).bind fun pos => some (waitNum pos, fun ts =>
          sendChunks_ src ts push chunkIds vals pos f withMinClock)) = some (wait, g) →
      r.ts = ts ∧ r.src = src := by
    intro chunkIds chunks vals push f withMinClock h
    split at h
    · cases h
    · obtain ⟨pos, -, h⟩ := Option.bind_eq_some_iff.mp h
      obtain ⟨-, rfl⟩ := Prod.mk.inj (Option.some.inj h)
      exact ts_of_mem_sendChunks_ hg hr
  cases c with
  | push keys vals =>
      obtain ⟨-, rfl⟩ := Prod.mk.inj (Option.some.inj h)
      obtain rfl := Option.some.inj hg
      exact ts_of_mem_send_ hr
  | pull keys =>
      obtain ⟨-, rfl⟩ := Prod.mk.inj (Option.some.inj h)
      obtain rfl := Option.some.inj hg
      exact ts_of_mem_send_ hr
  | pushChunks ids chunks => exact hchunks h
  | pullChunks ids chunks => exact hchunks h
  | pullChunksWithMinClock ids chunks => exact hchunks h

/-! ## Traces -/

/-- All that the world holds of one request at the worker or on its way to it. -/
structure Trace (Val : Type) where
  entry : Option (ℕ × ℕ)
  recv : Option (Recv Val)
  callback : Option (Callback Val)
  finished : List (Dest Val)
  replies : List (BinStream Val)

/-- The trace of a request that was not made. -/
def Trace.blank : Trace Val := ⟨none, none, none, [], []⟩

section World

variable {S : ℕ × ℕ → Type}

/-- The world as one request sees it. -/
def World.trace (w : World S Val) (key : ℕ × ℕ) : Trace Val where
  entry := w.worker.entry key
  recv := w.worker.recvKvs key
  callback := w.worker.callbacks key
  finished := w.worker.results key
  replies := w.inbox.filter fun bin => header bin = some key

/-- Somebody else does not send in the name of the worker. -/
def Event.Foreign (src : ℕ) : Event Val → Prop
  | external _ r => r.src ≠ src
  | _ => True

variable [∀ p, StorageT (S p) Val] [Add Val] {tables : ℕ → RangeTable} {src : ℕ}

theorem deliver_spec {servers servers' : ∀ p, Server (S p) Val} {p : ℕ × ℕ}
    {m : Option (Request Val)} {out : List (Reply Val)}
    (h : deliver tables servers p m = some (servers', out)) :
    (∀ q, (servers' q).isSSP = (servers q).isSSP) ∧ (∀ q, q ≠ p → servers' q = servers q) ∧
      (∀ y ∈ out, y.kvId = p.1) ∧
      ((servers p).isSSP = false → ∀ y ∈ out, ∃ r, m = some r ∧ y.key = r.key) := by
  simp only [deliver, Option.bind_eq_bind, Option.bind_eq_some_iff, Option.some.injEq,
    Prod.mk.injEq] at h
  obtain ⟨⟨srv, out'⟩, hreceive, rfl, rfl⟩ := h
  obtain ⟨hssp, hkv, hkey⟩ := Server.receive_spec hreceive
  refine ⟨fun q => ?_, fun q hq => Function.update_of_ne hq _ _, hkv, hkey⟩
  by_cases hq : q = p
  · subst hq
    simpa using hssp
  · simp [hq]

/-- The messages of a call to one store. -/
theorem exchange_spec {servers servers' : ∀ p, Server (S p) Val} {kvId : ℕ}
    {messages : List (Option (Request Val))} {out : List (Reply Val)}
    (h : exchange tables kvId servers messages = some (servers', out)) :
    (∀ q, (servers' q).isSSP = (servers q).isSSP) ∧
      (∀ q : ℕ × ℕ, q.1 ≠ kvId → servers' q = servers q) ∧ (∀ y ∈ out, y.kvId = kvId) ∧
      ((∀ i, (servers (kvId, i)).isSSP = false) →
        ∀ y ∈ out, ∃ r, some r ∈ messages ∧ y.key = r.key) := by
  have hinv := run_invariant
    (I := fun now => (∀ q, (now q).isSSP = (servers q).isSSP) ∧
      ∀ q : ℕ × ℕ, q.1 ≠ kvId → now q = servers q)
    (Q := fun x y => y.kvId = kvId ∧ ((∀ i, (servers (kvId, i)).isSSP = false) →
      ∃ r, x.1 = some r ∧ y.key = r.key))
    (fun {now x now' out} hnow hstep => by
      obtain ⟨hssp, hother, hkv, hkey⟩ := deliver_spec hstep
      refine ⟨⟨fun q => (hssp q).trans (hnow.1 q), fun q hq => ?_⟩, fun y hy => ⟨hkv y hy, ?_⟩⟩
      · rw [hother q (by rintro rfl; exact hq rfl), hnow.2 q hq]
      · intro hdefault
        exact hkey ((hnow.1 _).trans (hdefault x.2)) y hy)
    ⟨fun _ => rfl, fun _ _ => rfl⟩ h
  refine ⟨hinv.1.1, hinv.1.2, fun y hy => ?_, fun hdefault y hy => ?_⟩
  · obtain ⟨_, -, hkv, -⟩ := hinv.2 y hy
    exact hkv
  · obtain ⟨x, hx, -, hkey⟩ := hinv.2 y hy
    obtain ⟨r, hr, hkey⟩ := hkey hdefault
    refine ⟨r, ?_, hkey⟩
    rw [← hr]
    exact List.fst_mem_of_mem_zipIdx hx

/-- An event keeps the family of every server. -/
theorem worldStep_isSSP {w w' : World S Val} {e : Event Val}
    (h : worldStep tables src w e = some w') (q : ℕ × ℕ) :
    (w'.servers q).isSSP = (w.servers q).isSSP := by
  cases e with
  | call kvId c f =>
      simp only [worldStep, Option.bind_eq_bind, Option.bind_eq_some_iff, Option.some.injEq] at h
      obtain ⟨p, -, ⟨servers, out⟩, hexchange, rfl⟩ := h
      exact (exchange_spec hexchange).1 q
  | external p r =>
      simp only [worldStep, Option.bind_eq_bind, Option.bind_eq_some_iff, Option.some.injEq] at h
      obtain ⟨⟨servers, out⟩, hdeliver, rfl⟩ := h
      exact (deliver_spec hdeliver).1 q
  | arrive j =>
      simp only [worldStep, Option.bind_eq_bind, Option.bind_eq_some_iff, Option.some.injEq] at h
      obtain ⟨bin, -, p, -, rfl⟩ := h
      rfl

omit [∀ p, StorageT (S p) Val] [Add Val] in
/-- New replies that belong to other requests. -/
theorem filter_toWorker {key : ℕ × ℕ} {out : List (Reply Val)}
    (h : ∀ y ∈ out, y.src = src → (y.kvId, y.ts) ≠ key) :
    (toWorker src out).filter (fun bin => header bin = some key) = [] := by
  rw [toWorker, List.filter_eq_nil_iff]
  intro bin hbin
  obtain ⟨y, hy, rfl⟩ := List.mem_map.mp hbin
  obtain ⟨hy, hsrc⟩ := List.mem_filter.mp hy
  simpa using h y hy (by simpa using hsrc)

/-- **The frame rule of an event**: it leaves the trace of a request to default servers
alone, unless it is the call that makes the request or the arrival of one of its replies. -/
theorem worldStep_trace (key : ℕ × ℕ) {w w' : World S Val} {e : Event Val}
    (h : worldStep tables src w e = some w') (he : e.Foreign src)
    (hdefault : ∀ i, (w.servers (key.1, i)).isSSP = false) :
    w'.trace key = w.trace key ∨
    (key.2 = (slot w.worker.tracker key.1).length ∧ ∃ m, w'.worker.entry key = some (m, 0)) ∨
    ∃ j bin, e = .arrive j ∧ w.inbox[j]? = some bin ∧ header bin = some key ∧
      ∃ m, w'.worker.entry key = some m := by
  cases e with
  | call kvId c f =>
      simp only [worldStep, Call.issue, Option.bind_eq_bind, Option.bind_eq_some_iff,
        Option.some.injEq, Prod.exists, Prod.mk.injEq] at h
      obtain ⟨ts, worker, messages, ⟨wait, g, hslices, messages', hg, hts, hworker, rfl⟩, servers, out,
        hexchange, rfl⟩ := h
      obtain ⟨-, -, hkv, hreply⟩ := exchange_spec hexchange
      have hentry : worker.entry key = if key = (kvId, ts) then some (wait, 0)
          else w.worker.entry key := by
        rw [← hworker, ← hts, ← w.worker.entry_newRequest kvId wait key]
        cases c.callback <;> rfl
      by_cases hkey : key = (kvId, ts)
      · refine .inr (.inl ⟨?_, wait, by rw [hentry, if_pos hkey]⟩)
        rw [hkey, ← hts]
        rfl
      · left
        have hreplies : (toWorker src out).filter (fun bin => header bin = some key) = [] := by
          refine filter_toWorker fun y hy _ heq => hkey ?_
          have hkvId : key.1 = kvId := by rw [← heq, hkv y hy]
          obtain ⟨r, hr, hyr⟩ := hreply (hkvId ▸ hdefault) y hy
          have hyts : y.ts = r.ts := congrArg Prod.snd hyr
          have hrts : r.ts = ts := (ts_of_mem_slices hslices hg hr).1.trans hts
          rw [← heq, hkv y hy, hyts, hrts]
        have hworker' : KVWorker.SameFor key
            { worker with tracker := w.worker.tracker } w.worker := by
          rw [← hworker, hts]
          cases c.callback with
          | none => exact ⟨rfl, rfl, rfl, rfl⟩
          | some cb => exact ⟨rfl, rfl, (Function.update_of_ne hkey _ _).symm, rfl⟩
        simp only [World.trace, hentry, if_neg hkey, List.filter_append, hreplies, List.append_nil,
          Trace.mk.injEq, true_and, and_true]
        exact ⟨hworker'.recvKvs.symm, hworker'.callbacks.symm, hworker'.results.symm⟩
  | external p r =>
      simp only [worldStep, Option.bind_eq_bind, Option.bind_eq_some_iff, Option.some.injEq] at h
      obtain ⟨⟨servers, out⟩, hdeliver, rfl⟩ := h
      obtain ⟨-, -, hkv, hreply⟩ := deliver_spec hdeliver
      left
      have hreplies : (toWorker src out).filter (fun bin => header bin = some key) = [] := by
        refine filter_toWorker fun y hy hsrc heq => he ?_
        have hp : p = (key.1, p.2) := by rw [← heq, hkv y hy]
        obtain ⟨r', hr', hyr⟩ := hreply (hp ▸ hdefault p.2) y hy
        obtain rfl := Option.some.inj hr'
        exact (congrArg Prod.fst hyr).symm.trans hsrc
      simp [World.trace, List.filter_append, hreplies]
  | arrive j =>
      simp only [worldStep, Option.bind_eq_bind, Option.bind_eq_some_iff, Option.some.injEq] at h
      obtain ⟨bin, hbin, ⟨key', worker⟩, hreceive, rfl⟩ := h
      obtain ⟨hheader, ⟨e, hentry⟩, hframe⟩ := KVWorker.receive_frame hreceive
      by_cases hkey : key = key'
      · subst hkey
        refine .inr (.inr ⟨j, bin, rfl, hbin, hheader, (e.1, e.2 + 1), ?_⟩)
        have htracker : worker.tracker = w.worker.tracker :=
          (hframe (key.1 + 1, key.2) (by simp [Prod.ext_iff])).tracker
        have hkept : worker.entry key = some e := by
          rw [← hentry, KVWorker.entry, htracker]
          rfl
        rw [KVWorker.entry_countResponse, if_pos rfl, hkept]
        rfl
      · left
        obtain ⟨l₁, l₂, hl, herase⟩ := exists_eraseIdx hbin
        have hother : ¬ header bin = some key := by
          rw [hheader]
          exact fun h => hkey (Option.some.inj h).symm
        have hsame := hframe key hkey
        have hentry' : (worker.countResponse key').entry key = w.worker.entry key := by
          rw [KVWorker.entry_countResponse, if_neg hkey, KVWorker.entry, hsame.tracker]
          rfl
        have hreplies : (w.inbox.eraseIdx j).filter (fun bin => header bin = some key) =
            w.inbox.filter fun bin => header bin = some key := by
          rw [herase, hl]
          simp [List.filter_append, hother]
        simp only [World.trace, hentry', hreplies, Trace.mk.injEq, true_and, and_true]
        exact ⟨hsame.recvKvs, hsame.callbacks, hsame.results⟩

/-! ## Requests that were not made -/

/-- No request to come of a store has left a trace. -/
def Fresh (kvId : ℕ) (w : World S Val) : Prop :=
  ∀ ts, w.worker.entry (kvId, ts) = none → w.trace (kvId, ts) = .blank

omit [∀ p, StorageT (S p) Val] [Add Val] in
theorem fresh_new {w : World S Val} (hworker : w.worker = .new) (hinbox : w.inbox = [])
    (kvId : ℕ) : Fresh kvId w := by
  intro ts _
  rw [World.trace, hworker, hinbox]
  rfl

theorem Fresh.step {kvId : ℕ} {w w' : World S Val} {e : Event Val} (hfresh : Fresh kvId w)
    (hdefault : ∀ i, (w.servers (kvId, i)).isSSP = false) (he : e.Foreign src)
    (h : worldStep tables src w e = some w') : Fresh kvId w' := by
  intro ts hnone
  rcases worldStep_trace (kvId, ts) h he hdefault with hsame | ⟨-, m, hm⟩ |
    ⟨_, _, -, -, -, m, hm⟩
  · rw [hsame]
    apply hfresh
    rw [← hnone]
    exact (congrArg Trace.entry hsame).symm
  · rw [hm] at hnone
    cases hnone
  · rw [hm] at hnone
    cases hnone

/-- No run leaves a trace of a request that was not made. -/
theorem Fresh.run {kvId : ℕ} {w w' : World S Val} {events : List (Event Val)}
    (hfresh : Fresh kvId w) (hdefault : ∀ i, (w.servers (kvId, i)).isSSP = false)
    (he : ∀ e ∈ events, e.Foreign src) (h : events.foldlM (worldStep tables src) w = some w') :
    Fresh kvId w' ∧ ∀ i, (w'.servers (kvId, i)).isSSP = false := by
  induction events generalizing w with
  | nil =>
      obtain rfl := Option.some.inj h
      exact ⟨hfresh, hdefault⟩
  | cons e events ih =>
      rw [List.foldlM_cons] at h
      obtain ⟨w₁, hstep, hrest⟩ := Option.bind_eq_some_iff.mp h
      apply ih (hfresh.step hdefault (he e (by simp)) hstep) _ (fun e he' => he e (by simp [he']))
        hrest
      intro i
      rw [worldStep_isSSP hstep, hdefault i]

end World

end FlexPS.KVStore
