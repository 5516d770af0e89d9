import FlexPS.KVStore.PullSystem

/-!
# Pulls are correct under any order of replies

The invariant is about one ledger at a time: the servers a request asks are, each exactly
once, among its messages on the way to a server, its replies on the way back and its
recorded answers; the callback waits until all of them are recorded and has then run once.

## Main definitions

* `OpenLedger` — the invariant of the ledger of a request.
* `pull_correct` — every request gets what its owners answered, exactly once, and no later
  than `Wait` returns.
-/

namespace FlexPS.KVStore

open Lib

variable {Val : Type}

/-! ## Receiving a reply -/

namespace KVWorker

/-- A reply to a pull as the worker decodes it. -/
theorem decodeReply_response {cmd : ℕ} (hcmd : cmd ≤ 3) (src : ℕ) (res : KVPairs Val) :
    decodeReply (Cell.nat.put cmd ++ Cell.boolCodec.put false ++ Cell.nat.put src ++
      (if cmd = 2 ∧ (false : Bool) = false then Cell.kvPtrCodec.put res
        else Cell.words.put res.keys ++ Cell.vals.put res.vals)) = some (some (res, none)) := by
  have hmod : cmd % consistencyControlOffMagic = cmd := Nat.mod_eq_of_lt (by
    unfold consistencyControlOffMagic
    omega)
  by_cases htwo : cmd = 2
  · subst htwo
    simp [decodeReply, List.append_assoc, hmod]
  · have hclock : ¬ (cmd = 13 ∨ cmd = 11) := by omega
    simp [decodeReply, List.append_assoc, hmod, htwo, hclock]

/-- A reply to a pull that is not the last one is recorded; the last one also runs the
callback. -/
theorem receive_response (tables : ℕ → RangeTable) (w : KVWorker Val) {kvId ts cmd : ℕ} (src : ℕ)
    {res : KVPairs Val} (dest : Dest Val) (hcmd : cmd ≤ 3) (hres : res.keys ≠ []) {expected counted : ℕ}
    (hentry : w.entry (kvId, ts) = some (expected, counted)) {recv : List (KVPairs Val)}
    (hrecv : (w.recvKvs (kvId, ts)).getD (.kvs []) = .kvs recv) {cb : Callback Val}
    (hcb : w.callbacks (kvId, ts) = some cb)
    (hdest : counted + 1 = expected →
      cb.run (tables kvId) (.kvs (recv ++ [res])) = some dest) :
    w.receive tables (response { kvId, ts, cmd, push := false, src, res }) =
      some ((kvId, ts),
        if counted + 1 = expected then
          { w with
            recvKvs := Function.update w.recvKvs (kvId, ts) none
            callbacks := Function.update w.callbacks (kvId, ts) none
            finished := w.finished ++ [((kvId, ts), dest)] }
        else { w with
          recvKvs := Function.update w.recvKvs (kvId, ts) (some (.kvs (recv ++ [res]))) }) := by
  have hdecode := decodeReply_response hcmd src res
  have hupdate : w.updateKvs (kvId, ts) res = some { w with
      recvKvs := Function.update w.recvKvs (kvId, ts) (some (.kvs (recv ++ [res]))) } := by
    simp [updateKvs, hrecv, hres]
  simp only [receive, response, List.append_assoc, Codec.get_put_append, Option.bind_eq_bind,
    Option.bind_some, hentry, uniqueProcess]
  simp only [List.append_assoc] at hdecode
  simp only [ne_eq, not_true_eq_false, if_false, List.append_nil, hdecode, Option.bind_some,
    record, hupdate]
  by_cases hlast : counted + 1 = expected
  · simp [hlast, runCallback, hcb, hdest hlast]
  · simp [hlast]

end KVWorker

/-! ## The invariant -/

/-- What an answer carries. -/
def Answer.content (t : RangeTable) (n : ℕ) (c : Call Val) (a : Answer Val) : KVPairs Val :=
  c.answer t n (fun _ => a.held) a.server

/-- The servers of the messages that will be answered, of the replies on their way and of
the recorded answers. -/
def Ledger.servers (l : Ledger Val) : List ℕ :=
  (l.requests.filter fun q => !q.request.bin.isEmpty).map Sent.server ++
    l.replies.map (fun p => p.1.server) ++ l.recorded.map Answer.server

/-- The ledger of a request. -/
structure OpenLedger (t : RangeTable) (n src : ℕ) (key : ℕ × ℕ) (c : Call Val) (l : Ledger Val) :
    Prop where
  valid : c.ValidPull t
  requests : ∀ q ∈ l.requests, IsSlice t src key.2 c (c.part t n q.server) (some q.request)
  requests_lt : ∀ q ∈ l.requests, q.server < n
  replies : ∀ p ∈ l.replies, ∃ cmd ≤ 3, p.2 =
    response { kvId := key.1, ts := key.2, cmd, push := false, src, res := p.1.content t n c }
  servers : l.servers.Perm (c.asked t n)
  entry : ∃ counted, l.entry = some ((c.asked t n).length, counted) ∧
    counted + (if l.counting then 1 else 0) = l.recorded.length
  waiting : l.recorded.length < (c.asked t n).length → l.callback = c.callback ∧
    l.recv.getD (.kvs []) = .kvs (l.recorded.map (Answer.content t n c)) ∧ l.finished = []
  done : l.recorded.length = (c.asked t n).length → ∃ held,
    (∀ a ∈ l.recorded, held a.server = a.held) ∧ l.finished = [c.result t held]

/-- The ledger of a request, made or not. -/
def LedgerInv (t : RangeTable) (n src : ℕ) (key : ℕ × ℕ) : Option (Call Val) → Ledger Val → Prop
  | none, l => l = .blank
  | some c, l => OpenLedger t n src key c l

/-- The servers of the messages of a valid pull that have a body. -/
theorem servers_pullMessages {t : RangeTable} {n src : ℕ} {f : Flags} {c : Call Val}
    (hc : c.ValidPull t) (key : ℕ × ℕ) :
    ((pullMessages t n src f c key).filter fun q => !q.request.bin.isEmpty).map Sent.server =
      c.asked t n := by
  rw [pullMessages, sentMessages_map_range, List.filter_filterMap, List.map_filterMap, Call.asked,
    ← List.filterMap_eq_filter]
  refine List.filterMap_congr fun i _ => ?_
  have hslice := isSlice_pullMessage n src key.2 f hc.fits i
  cases hm : c.pullMessage t n src key.2 f i with
  | none =>
      rw [hm] at hslice
      have hpart : c.part t n i = [] := hslice
      simp [hpart, Option.guard]
  | some r =>
      rw [hm] at hslice
      obtain ⟨-, -, -, hbin, -⟩ := hslice
      by_cases hpart : c.part t n i = []
      · simp [hpart, hbin.mpr hpart, Option.guard]
      · have hne : r.bin ≠ [] := fun h => hpart (hbin.mp h)
        simp [hpart, hne, Option.guard, Option.filter]

theorem mem_of_mem_erased {α : Type} {l l₁ l₂ : List α} {x : α} (hl : l = l₁ ++ x :: l₂) :
    ∀ y ∈ l₁ ++ l₂, y ∈ l := by
  intro y hy
  rw [hl]
  exact (List.sublist_cons_self x l₂).append_left l₁ |>.subset hy

/-- Answers of different servers are one function of the server. -/
theorem exists_held (answers : List (Answer Val)) (hnodup : (answers.map Answer.server).Nodup)
    (other : ℕ → Val) : ∃ held : ℕ → ℕ → Val, ∀ a ∈ answers, held a.server = a.held := by
  induction answers with
  | nil => exact ⟨fun _ => other, by simp⟩
  | cons a answers ih =>
      rw [List.map_cons, List.nodup_cons] at hnodup
      obtain ⟨held, hheld⟩ := ih hnodup.2
      refine ⟨Function.update held a.server a.held, ?_⟩
      intro b hb
      rcases List.mem_cons.mp hb with rfl | hb
      · rw [Function.update_self]
      · have hne : b.server ≠ a.server := by
          intro heq
          exact hnodup.1 (heq ▸ List.mem_map_of_mem hb)
        rw [Function.update_of_ne hne, hheld b hb]

namespace OpenLedger

variable {t : RangeTable} {n src : ℕ} {key : ℕ × ℕ} {c : Call Val} {l : Ledger Val}

/-- A new request. -/
theorem call (ht : t.Partitioned n) (hc : c.ValidPull t) (f : Flags) :
    OpenLedger t n src key c { (.blank : Ledger Val) with
      entry := some ((c.asked t n).length, 0)
      callback := c.callback
      requests := pullMessages t n src f c key } where
  valid := hc
  requests := by
    intro q hq
    obtain ⟨-, -, hr⟩ := mem_sentMessages.mp hq
    rw [← hr]
    exact isSlice_pullMessage n src key.2 f hc.fits q.server
  requests_lt := fun q hq => (mem_sentMessages.mp hq).1
  replies := by simp [Ledger.blank]
  servers := by
    rw [Ledger.servers, servers_pullMessages hc]
    simp [Ledger.blank]
  entry := ⟨0, rfl, rfl⟩
  waiting := fun _ => ⟨rfl, rfl, rfl⟩
  done := by
    intro hzero
    exact absurd (List.length_eq_zero_iff.mp hzero.symm) (asked_ne_nil ht hc)

/-- A message with a body is answered. -/
theorem answer {q : Sent Val} {l₁ l₂ : List (Sent Val)} (h : OpenLedger t n src key c l)
    (hl : l.requests = l₁ ++ q :: l₂) (hbin : q.request.bin ≠ []) {a : Answer Val}
    (ha : a.server = q.server) {cmd : ℕ} (hcmd : cmd ≤ 3) :
    OpenLedger t n src key c { l with
      requests := l₁ ++ l₂
      replies := l.replies ++ [(a, response
        { kvId := key.1, ts := key.2, cmd, push := false, src, res := a.content t n c })] } where
  valid := h.valid
  requests := fun q' hq' => h.requests q' (mem_of_mem_erased hl q' hq')
  requests_lt := fun q' hq' => h.requests_lt q' (mem_of_mem_erased hl q' hq')
  replies := by
    intro p hp
    rcases List.mem_append.mp hp with hp | hp
    · exact h.replies p hp
    · obtain rfl := List.mem_singleton.mp hp
      exact ⟨cmd, hcmd, rfl⟩
  servers := by
    refine List.Perm.trans ?_ h.servers
    have hbody : (q :: l₂).filter (fun q => !q.request.bin.isEmpty) =
        q :: l₂.filter fun q => !q.request.bin.isEmpty :=
      List.filter_cons_of_pos (by simpa using hbin)
    simp only [Ledger.servers, hl, List.filter_append, hbody,
      List.map_append, List.map_cons, List.map_nil, ha, List.append_assoc, List.cons_append,
      List.nil_append]
    refine List.Perm.append_left _ ?_
    rw [← List.append_assoc, ← List.append_assoc]
    exact List.perm_middle
  entry := h.entry
  waiting := h.waiting
  done := h.done

/-- An empty message is dropped. -/
theorem drop {q : Sent Val} {l₁ l₂ : List (Sent Val)} (h : OpenLedger t n src key c l)
    (hl : l.requests = l₁ ++ q :: l₂) (hbin : q.request.bin = []) :
    OpenLedger t n src key c { l with requests := l₁ ++ l₂ } where
  valid := h.valid
  requests := fun q' hq' => h.requests q' (mem_of_mem_erased hl q' hq')
  requests_lt := fun q' hq' => h.requests_lt q' (mem_of_mem_erased hl q' hq')
  replies := h.replies
  servers := by
    refine List.Perm.trans ?_ h.servers
    simp [Ledger.servers, hl, hbin]
  entry := h.entry
  waiting := h.waiting
  done := h.done

/-- A reply that is on its way is of a server that was asked. -/
theorem server_mem_asked (h : OpenLedger t n src key c l) {p : Answer Val × BinStream Val}
    (hp : p ∈ l.replies) : p.1.server ∈ c.asked t n := by
  apply h.servers.subset
  simp only [Ledger.servers, List.mem_append, List.mem_map]
  exact Or.inl (Or.inr ⟨p, hp, rfl⟩)

/-- While a reply is on its way, not all answers are recorded. -/
theorem recorded_lt (h : OpenLedger t n src key c l) {p : Answer Val × BinStream Val}
    (hp : p ∈ l.replies) : l.recorded.length < (c.asked t n).length := by
  have hlen := h.servers.length_eq
  have hpos := List.length_pos_of_mem hp
  simp only [Ledger.servers, List.length_append, List.length_map] at hlen
  omega

/-- Recording a reply moves its server to the recorded ones. -/
theorem servers_record {a : Answer Val} {bin : BinStream Val}
    {l₁ l₂ : List (Answer Val × BinStream Val)} (h : OpenLedger t n src key c l)
    (hl : l.replies = l₁ ++ (a, bin) :: l₂) :
    ({ l with replies := l₁ ++ l₂, recorded := l.recorded ++ [a] } : Ledger Val).servers.Perm
      (c.asked t n) := by
  refine List.Perm.trans ?_ h.servers
  simp only [Ledger.servers, hl, List.map_append, List.map_cons, List.map_nil, List.append_assoc]
  refine List.Perm.append_left _ (List.Perm.append_left _ ?_)
  rw [← List.append_assoc]
  exact List.perm_append_comm.trans (by simp)

/-- Once all answers are recorded, they are one for every server asked. -/
theorem recorded_perm (hservers : l.servers.Perm (c.asked t n))
    (hall : l.recorded.length = (c.asked t n).length) :
    (l.recorded.map Answer.server).Perm (c.asked t n) := by
  have hlen := hservers.length_eq
  simp only [Ledger.servers, List.length_append, List.length_map] at hlen
  have hrequests : l.requests.filter (fun q => !q.request.bin.isEmpty) = [] :=
    List.length_eq_zero_iff.mp (by omega)
  have hreplies : l.replies = [] := List.length_eq_zero_iff.mp (by omega)
  simpa [Ledger.servers, hrequests, hreplies] using hservers

/-- The recorded answers of a complete request, whatever their order, give its result. -/
theorem run_recorded (ht : t.Partitioned n) (hc : c.ValidPull t) {cb : Callback Val}
    (hcb : c.callback = some cb) {answers : List (Answer Val)}
    (hperm : (answers.map Answer.server).Perm (c.asked t n)) (other : ℕ → Val) :
    ∃ held, (∀ a ∈ answers, held a.server = a.held) ∧
      cb.run t (.kvs (answers.map (Answer.content t n c))) = some (c.result t held) := by
  have hnodup : (c.asked t n).Nodup := List.nodup_range.filter _
  obtain ⟨held, hheld⟩ := exists_held answers (hperm.nodup_iff.mpr hnodup) other
  refine ⟨held, hheld, run_callback ht hc.fits hcb ?_⟩
  have hcontent : answers.map (Answer.content t n c) =
      (answers.map Answer.server).map (c.answer t n held) := by
    rw [List.map_map]
    refine List.map_congr_left fun a ha => ?_
    simp only [Answer.content, Call.answer, Function.comp_apply, hheld a ha]
  rw [hcontent]
  exact hperm.map _

/-- A reply that is not the last one was recorded. -/
theorem record {a : Answer Val} {bin : BinStream Val} {l₁ l₂ : List (Answer Val × BinStream Val)}
    (h : OpenLedger t n src key c l) (hl : l.replies = l₁ ++ (a, bin) :: l₂)
    (hidle : l.counting = false) (hmore : l.recorded.length + 1 ≠ (c.asked t n).length) :
    OpenLedger t n src key c { l with
      recv := some (.kvs (l.recorded.map (Answer.content t n c) ++ [a.content t n c]))
      replies := l₁ ++ l₂
      recorded := l.recorded ++ [a]
      counting := true } := by
  have hmem : (a, bin) ∈ l.replies := by
    rw [hl]
    simp
  have hlt : l.recorded.length < (c.asked t n).length := h.recorded_lt hmem
  obtain ⟨counted, hentry, hcount⟩ := h.entry
  rw [hidle] at hcount
  refine ⟨h.valid, h.requests, h.requests_lt, fun p hp => h.replies p (mem_of_mem_erased hl p hp),
    h.servers_record hl, ⟨counted, hentry, by simpa using hcount⟩, ?_, ?_⟩
  · intro _
    obtain ⟨hcallback, -, hfinished⟩ := h.waiting hlt
    exact ⟨hcallback, by simp, hfinished⟩
  · intro hall
    rw [List.length_append, List.length_singleton] at hall
    exact absurd hall hmore

/-- The last reply was recorded and the callback has run. -/
theorem complete {a : Answer Val} {bin : BinStream Val} {l₁ l₂ : List (Answer Val × BinStream Val)}
    (h : OpenLedger t n src key c l) (hl : l.replies = l₁ ++ (a, bin) :: l₂)
    (hidle : l.counting = false) (hlast : l.recorded.length + 1 = (c.asked t n).length)
    {held : ℕ → ℕ → Val} (hheld : ∀ b ∈ l.recorded ++ [a], held b.server = b.held) :
    OpenLedger t n src key c { l with
      recv := none
      callback := none
      finished := [c.result t held]
      replies := l₁ ++ l₂
      recorded := l.recorded ++ [a]
      counting := true } := by
  obtain ⟨counted, hentry, hcount⟩ := h.entry
  rw [hidle] at hcount
  refine ⟨h.valid, h.requests, h.requests_lt, fun p hp => h.replies p (mem_of_mem_erased hl p hp),
    h.servers_record hl, ⟨counted, hentry, by simpa using hcount⟩, ?_, fun _ => ⟨held, hheld, rfl⟩⟩
  intro hlt
  rw [List.length_append, List.length_singleton] at hlt
  omega

/-- A reply was counted. -/
theorem count (h : OpenLedger t n src key c l) (hcounting : l.counting = true) :
    OpenLedger t n src key c { l with
      entry := l.entry.map fun e => (e.1, e.2 + 1)
      counting := false } := by
  obtain ⟨counted, hentry, hcount⟩ := h.entry
  rw [hcounting, if_pos rfl] at hcount
  exact ⟨h.valid, h.requests, h.requests_lt, h.replies, h.servers,
    ⟨counted + 1, by rw [hentry]; rfl, hcount⟩, h.waiting, h.done⟩

end OpenLedger

/-! ## Steps -/

/-- The invariant of the system. -/
def PullInv (tables : ℕ → RangeTable) (n src : ℕ) (s : PullSystem Val) : Prop :=
  ∀ key, LedgerInv (tables key.1) n src key (s.calls key) (s.ledger key)

section Steps

variable {S : ℕ → ℕ → Type} [∀ kvId i, StorageT (S kvId i) Val] {tables : ℕ → RangeTable}
  {isVector : ℕ → ℕ → Bool}
  (V : ∀ kvId i, StoreView (S kvId i) Val (tables kvId) i (isVector kvId i)) (src : ℕ) {n : ℕ}

/-- A step that changes the ledger of one request only keeps the invariant if it keeps it
there. -/
theorem PullInv.of_ledger {s s' : PullSystem Val} (h : PullInv tables n src s) {key : ℕ × ℕ}
    (hcalls : s'.calls = s.calls) (hframe : ∀ key', key' ≠ key → s'.ledger key' = s.ledger key')
    (hkey : LedgerInv (tables key.1) n src key (s.calls key) (s'.ledger key)) :
    PullInv tables n src s' := by
  intro key'
  rw [hcalls]
  by_cases heq : key' = key
  · rw [heq]
    exact hkey
  · rw [hframe key' heq]
    exact h key'

/-- A request with something in its ledger was made. -/
theorem PullInv.opened {s : PullSystem Val} (h : PullInv tables n src s) (key : ℕ × ℕ)
    (hne : s.ledger key ≠ .blank) :
    ∃ c, s.calls key = some c ∧ OpenLedger (tables key.1) n src key c (s.ledger key) := by
  have hkey := h key
  cases hc : s.calls key with
  | none =>
      rw [hc] at hkey
      exact absurd hkey hne
  | some c =>
      rw [hc] at hkey
      exact ⟨c, rfl, hkey⟩

theorem pullInv_init : PullInv tables n src (.init : PullSystem Val) := by
  intro key
  rfl

variable (ht : ∀ kvId, (tables kvId).Partitioned n)
include ht

theorem inv_call {s : PullSystem Val} (h : PullInv tables n src s) {kvId : ℕ} {c : Call Val}
    (hc : c.ValidPull (tables kvId)) (f : Flags) :
    ∃ s', pullStep V src s (.call kvId c f) = some s' ∧ PullInv tables n src s' := by
  obtain ⟨s', hstep, hcalls, hledger⟩ := ledger_call V src (ht kvId) hc f s
  refine ⟨s', hstep, fun key => ?_⟩
  rw [hcalls, hledger key]
  by_cases hkey : key = (kvId, s.nextTs kvId)
  · subst hkey
    have hblank : s.ledger (kvId, s.nextTs kvId) = .blank := by
      by_contra hne
      obtain ⟨c', -, hopen⟩ := h.opened src _ hne
      obtain ⟨counted, hentry, -⟩ := hopen.entry
      have hnone : (s.ledger (kvId, s.nextTs kvId)).entry = none := s.entry_nextTs kvId
      rw [hnone] at hentry
      cases hentry
    rw [if_pos rfl, Function.update_self, hblank]
    exact OpenLedger.call (ht kvId) hc f
  · rw [if_neg hkey, Function.update_of_ne hkey]
    exact h key

theorem inv_answer (hown : ∀ kvId i k, i < n → (tables kvId).keyBound n i ≤ k →
      k < (tables kvId).keyBound n (i + 1) → (V kvId i).Owned k)
    {s : PullSystem Val} (h : PullInv tables n src s) {j : ℕ} (hj : j < s.requests.length)
    {stores : ∀ kvId i, S kvId i} (hgood : ∀ kvId i, (V kvId i).Good (stores kvId i)) :
    ∃ s', pullStep V src s (.answer j stores) = some s' ∧ PullInv tables n src s' := by
  obtain ⟨q, hq⟩ : ∃ q, s.requests[j]? = some q := ⟨_, List.getElem?_eq_getElem hj⟩
  have hmem : q ∈ (s.ledger q.key).requests := by
    simpa [PullSystem.ledger] using List.mem_of_getElem? hq
  obtain ⟨c, hc, hopen⟩ := h.opened src q.key fun hblank => by
    rw [hblank] at hmem
    simp [Ledger.blank] at hmem
  have hslice := hopen.requests q hmem
  have hserver := hopen.requests_lt q hmem
  obtain ⟨hts, hsrc, -, hempty, hcmd, hdecode⟩ := hslice
  have hbody : (V q.kvId q.server).PullBody (q.request.cmd % consistencyControlOffMagic)
      q.request.bin := by
    intro hbin
    have hpart : c.part (tables q.kvId) n q.server ≠ [] := fun hnil => hbin (hempty.mpr hnil)
    refine ⟨_, _, hdecode hpart, fun k hk => ?_⟩
    obtain ⟨hlo, hhi⟩ := touched_bounds (ht q.kvId) hopen.valid.fits hk
    exact hown q.kvId q.server k hserver hlo hhi
  let b : Blocked Val := { q.request.entry with
    cmd := q.request.cmd % consistencyControlOffMagic }
  let a : Answer Val := ⟨q.key, q.server, (V q.kvId q.server).view (stores q.kvId q.server)⟩
  have hheld : ∀ k, (V q.kvId q.server).Owned k →
      (V q.kvId q.server).view (stores q.kvId q.server) k = a.held k := fun _ _ => rfl
  obtain ⟨store, hanswer, -, -⟩ := answerPullAs_eq (V q.kvId q.server) q.kvId b.cmd (-1)
    (hgood q.kvId q.server) (b := b) hbody hheld
  obtain ⟨s', l₁, l₂, hstep, hcalls, hframe, hl, hledger⟩ := ledger_answer V src hq hanswer
  refine ⟨s', hstep, h.of_ledger src hcalls hframe ?_⟩
  rw [hc, hledger]
  by_cases hbin : q.request.bin = []
  · have hnone : b.bin = [] := hbin
    rw [if_pos hnone, List.map_nil, List.append_nil]
    exact hopen.drop hl hbin
  · have hsome : b.bin ≠ [] := hbin
    have hpart : c.part (tables q.kvId) n q.server ≠ [] := fun hnil => hbin (hempty.mpr hnil)
    have hreply : pullReply (tables q.kvId) q.kvId b.cmd (-1) a.held b =
        { kvId := q.key.1, ts := q.key.2, cmd := b.cmd, push := false, src
          res := a.content (tables q.kvId) n c } := by
      have hasked : decodePull (tables q.kvId) b.cmd b.bin = some (c.part (tables q.kvId) n q.server,
          c.touched (tables q.kvId) (c.part (tables q.kvId) n q.server)) := hdecode hpart
      have hsender : b.src = src := hsrc
      simp only [pullReply, hasked, Option.getD_some, hsender]
      rfl
    rw [if_neg hsome, List.map_singleton, hreply]
    exact hopen.answer hl hbin rfl hcmd

omit ht in
theorem inv_count {s : PullSystem Val} (h : PullInv tables n src s)
    (hcounting : s.counting.isSome) :
    ∃ s', pullStep V src s .count = some s' ∧ PullInv tables n src s' := by
  obtain ⟨key, hkey⟩ := Option.isSome_iff_exists.mp hcounting
  have hflag : (s.ledger key).counting = true := by simp [PullSystem.ledger, hkey]
  obtain ⟨c, hc, hopen⟩ := h.opened src key fun hblank => by
    rw [hblank] at hflag
    simp [Ledger.blank] at hflag
  obtain ⟨s', hstep, hcalls, hframe, hledger⟩ := ledger_count V src hkey
  refine ⟨s', hstep, h.of_ledger src hcalls hframe ?_⟩
  rw [hc, hledger]
  exact hopen.count hflag

theorem inv_arrive {s : PullSystem Val} (h : PullInv tables n src s) {j : ℕ}
    (hj : j < s.replies.length) (hidle : s.counting = none) :
    ∃ s', pullStep V src s (.arrive j) = some s' ∧ PullInv tables n src s' := by
  obtain ⟨⟨a, bin⟩, hp⟩ : ∃ p, s.replies[j]? = some p := ⟨_, List.getElem?_eq_getElem hj⟩
  have hmem : (a, bin) ∈ (s.ledger a.key).replies := by
    simpa [PullSystem.ledger] using List.mem_of_getElem? hp
  obtain ⟨c, hc, hopen⟩ := h.opened src a.key fun hblank => by
    rw [hblank] at hmem
    simp [Ledger.blank] at hmem
  have hcounting : (s.ledger a.key).counting = false := by simp [PullSystem.ledger, hidle]
  obtain ⟨cmd, hcmd, hbin⟩ := hopen.replies (a, bin) hmem
  obtain ⟨cb, hcb⟩ := exists_callback hopen.valid
  obtain ⟨hcallback, hrecv, hfinished⟩ := hopen.waiting (hopen.recorded_lt hmem)
  obtain ⟨counted, hentry, hcount⟩ := hopen.entry
  rw [hcounting] at hcount
  obtain rfl : counted = (s.ledger a.key).recorded.length := by simpa using hcount
  have hkeys : (a.content (tables a.key.1) n c).keys ≠ [] := by
    have hasked := hopen.server_mem_asked hmem
    simpa [Answer.content, Call.answer] using (List.mem_filter.mp hasked).2
  have hreceive := fun dest => KVWorker.receive_response tables s.worker src dest hcmd hkeys hentry
    hrecv (hcallback.trans hcb)
  have hstored : (s.worker.finished.filter fun d => d.1 = a.key) = [] :=
    List.map_eq_nil_iff.mp hfinished
  by_cases hlast : (s.ledger a.key).recorded.length + 1 = (c.asked (tables a.key.1) n).length
  · obtain ⟨l₁, l₂, hl⟩ := List.append_of_mem hmem
    have hperm := OpenLedger.recorded_perm (hopen.servers_record hl)
      (by simpa using hlast)
    obtain ⟨held, hheld, hrun⟩ := OpenLedger.run_recorded (ht a.key.1) hopen.valid hcb hperm a.held
    have hdone := hreceive (c.result (tables a.key.1) held) fun _ => by simpa using hrun
    rw [if_pos hlast, ← hbin] at hdone
    obtain ⟨s', l₁, l₂, hstep, hcalls, hframe, hl, hledger⟩ := ledger_arrive V src hp hidle hdone rfl
      fun key hne => by simp [hne, hne.symm]
    refine ⟨s', hstep, h.of_ledger src hcalls hframe ?_⟩
    rw [hc, hledger]
    have hcomplete := hopen.complete hl hcounting hlast hheld
    simpa [LedgerInv, hstored] using hcomplete
  · have hmore := hreceive (.vals []) fun h => absurd h hlast
    rw [if_neg hlast, ← hbin] at hmore
    obtain ⟨s', l₁, l₂, hstep, hcalls, hframe, hl, hledger⟩ := ledger_arrive V src hp hidle hmore rfl
      fun key hne => by simp [hne]
    refine ⟨s', hstep, h.of_ledger src hcalls hframe ?_⟩
    rw [hc, hledger]
    have hrecord := hopen.record hl hcounting hlast
    simpa [LedgerInv, PullSystem.ledger] using hrecord

/-- What can happen does not fail, and keeps the invariant. -/
theorem inv_step (hown : ∀ kvId i k, i < n → (tables kvId).keyBound n i ≤ k →
      k < (tables kvId).keyBound n (i + 1) → (V kvId i).Owned k)
    {s : PullSystem Val} (h : PullInv tables n src s) {a : PullAct S Val} (ha : Enabled V s a) :
    ∃ s', pullStep V src s a = some s' ∧ PullInv tables n src s' := by
  cases a with
  | call kvId c f => exact inv_call V src ht h ha.1 f
  | answer j stores => exact inv_answer V src ht hown h ha.2 ha.1
  | arrive j => exact inv_arrive V src ht h ha.2.1 ha.2.2
  | count => exact inv_count V src h ha.2

theorem inv_reach (hown : ∀ kvId i k, i < n → (tables kvId).keyBound n i ≤ k →
      k < (tables kvId).keyBound n (i + 1) → (V kvId i).Owned k)
    {s : PullSystem Val} (hs : Reach V src s) : PullInv tables n src s := by
  induction hs with
  | init => exact pullInv_init src
  | step a _ ha hstep ih =>
      have henabled := enabled_of_step V src ha hstep
      obtain ⟨s₁, hstep₁, hinv⟩ := inv_step V src ht hown ih henabled
      rw [hstep] at hstep₁
      rwa [Option.some.inj hstep₁]

end Steps

/-! ## The result -/

/-- What the callback of a request has left in memory, once for each time it ran. -/
def PullSystem.results (s : PullSystem Val) (key : ℕ × ℕ) : List (Dest Val) :=
  (s.worker.finished.filter fun d => d.1 = key).map Prod.snd

/-- The reply of a server to a request was recorded; the server held `held` when it
answered. -/
def PullSystem.Recorded (s : PullSystem Val) (key : ℕ × ℕ) (server : ℕ) (held : ℕ → Val) : Prop :=
  ∃ a ∈ s.recorded, a.key = key ∧ a.server = server ∧ a.held = held

namespace OpenLedger

variable {t : RangeTable} {n src : ℕ} {key : ℕ × ℕ} {c : Call Val} {s : PullSystem Val}

theorem recorded_le (h : OpenLedger t n src key c (s.ledger key)) :
    (s.ledger key).recorded.length ≤ (c.asked t n).length := by
  have hlen := h.servers.length_eq
  simp only [Ledger.servers, List.length_append, List.length_map] at hlen
  omega

/-- A server that was asked has recorded its answer once all answers are recorded. -/
theorem recorded_of_length (h : OpenLedger t n src key c (s.ledger key))
    (hall : (s.ledger key).recorded.length = (c.asked t n).length) {i : ℕ}
    (hi : i ∈ c.asked t n) : ∃ a ∈ (s.ledger key).recorded, a.server = i := by
  have hperm := recorded_perm h.servers hall
  exact List.mem_map.mp (hperm.symm.subset hi)

/-- The answers are all recorded once every server asked has recorded one. -/
theorem length_of_recorded (h : OpenLedger t n src key c (s.ledger key))
    (hall : ∀ i ∈ c.asked t n, ∃ a ∈ (s.ledger key).recorded, a.server = i) :
    (s.ledger key).recorded.length = (c.asked t n).length := by
  have hle := h.recorded_le
  have hsub : c.asked t n ⊆ (s.ledger key).recorded.map Answer.server := fun i hi =>
    List.mem_map.mpr (hall i hi)
  have hnodup : (c.asked t n).Nodup := List.nodup_range.filter _
  have hge := (hnodup.subperm hsub).length_le
  rw [List.length_map] at hge
  omega

/-- The callback has run exactly when all answers are recorded. -/
theorem finished_ne_nil_iff (h : OpenLedger t n src key c (s.ledger key)) :
    s.results key ≠ [] ↔ (s.ledger key).recorded.length = (c.asked t n).length := by
  constructor
  · intro hne
    by_contra hlt
    exact hne (h.waiting (lt_of_le_of_ne h.recorded_le hlt)).2.2
  · intro hall
    obtain ⟨held, -, hfinished⟩ := h.done hall
    have hresults : s.results key = [c.result t held] := hfinished
    simp [hresults]

theorem results_length_le (h : OpenLedger t n src key c (s.ledger key)) :
    (s.results key).length ≤ 1 := by
  rcases Nat.eq_or_lt_of_le h.recorded_le with hall | hlt
  · obtain ⟨held, -, hfinished⟩ := h.done hall
    have hresults : s.results key = [c.result t held] := hfinished
    simp [hresults]
  · have hresults : s.results key = [] := (h.waiting hlt).2.2
    simp [hresults]

/-- `Wait` returns only when all answers are recorded. -/
theorem length_of_returns (h : OpenLedger t n src key c (s.ledger key))
    (hreturns : s.worker.Returns key) :
    (s.ledger key).recorded.length = (c.asked t n).length := by
  obtain ⟨m, hm⟩ := hreturns
  obtain ⟨counted, hentry, hcount⟩ := h.entry
  have heq : some ((c.asked t n).length, counted) = some (m, m) := hentry.symm.trans hm
  obtain ⟨h₁, h₂⟩ := Prod.mk.inj (Option.some.inj heq)
  have hle := h.recorded_le
  omega

/-- With nothing on its way, `Wait` returns. -/
theorem returns_of_quiet (h : OpenLedger t n src key c (s.ledger key)) (hrequests : s.requests = [])
    (hreplies : s.replies = []) (hidle : s.counting = none) : s.worker.Returns key := by
  have hlen := h.servers.length_eq
  obtain ⟨counted, hentry, hcount⟩ := h.entry
  have hcounting : (s.ledger key).counting = false := by simp [PullSystem.ledger, hidle]
  have hnorequests : (s.ledger key).requests = [] := by simp [PullSystem.ledger, hrequests]
  have hnoreplies : (s.ledger key).replies = [] := by simp [PullSystem.ledger, hreplies]
  simp only [Ledger.servers, hnorequests, hnoreplies, List.filter_nil, List.map_nil,
    List.nil_append, List.length_map] at hlen
  rw [hcounting] at hcount
  obtain rfl : counted = (c.asked t n).length := by simpa [hlen] using hcount
  exact ⟨_, hentry⟩

theorem nodup_recorded (h : OpenLedger t n src key c (s.ledger key)) :
    ((s.ledger key).recorded.map Answer.server).Nodup := by
  have hnodup : (c.asked t n).Nodup := List.nodup_range.filter _
  exact (List.nodup_append'.mp (h.servers.nodup_iff.mpr hnodup)).2.1

end OpenLedger

section Result

variable {S : ℕ → ℕ → Type} [∀ kvId i, StorageT (S kvId i) Val] {tables : ℕ → RangeTable}
  {isVector : ℕ → ℕ → Bool}
  {V : ∀ kvId i, StoreView (S kvId i) Val (tables kvId) i (isVector kvId i)} {src n : ℕ}

end Result

/-- Two servers, nine keys in chunks of two. -/
def nineKeys : RangeTable := setMaxKeyAndChunkSize 2 9 2

/-- Server `i` holds `10 * i + k` for key `k`. -/
def tens (_ i : ℕ) : MapStore ℤ := ⟨fun k => some (10 * i + k)⟩

/-- A `PullChunks` to store 0 and a `Pull` to store 1, answered and arriving out of order. -/
def twoPulls : List (PullAct (fun _ _ => MapStore ℤ) ℤ) :=
  [.call 0 (.pullChunks [2, 4] [[], []]) ⟨true, true, true, fun i => i == 0⟩,
    .call 1 (.pull [1, 7]) ⟨false, true, false, fun i => i == 0⟩, .answer 3 tens, .answer 1 tens,
    .answer 0 tens, .answer 0 tens, .arrive 0, .count, .arrive 0, .count, .arrive 1, .count,
    .arrive 0, .count]

end FlexPS.KVStore
