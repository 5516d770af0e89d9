import FlexPS.KVStore.PushRequest
import FlexPS.KVStore.PullCorrect
import FlexPS.KVStore.Traffic

/-!
# What was pushed is pulled

A push to assign servers followed by a pull of the same keys or chunks returns what was
pushed, whatever the encodings of the two calls, whatever happens at other stores in between
and whatever the order in which replies arrive.

## Main definitions

* `AssignServers` — the servers of one store, all of them assign servers.
* `Pending` — the invariant of a pull some of whose answers have arrived.
* `Delivers`, `Returned` — what a pull gets, and that it is what was pushed.
* `encodings_agree` — all encodings of a sequence of calls have the same effect.
-/

namespace FlexPS.KVStore

open Lib

variable {Val : Type}

theorem toWorker_eq {src : ℕ} {out : List (Reply Val)} (h : ∀ r ∈ out, r.src = src) :
    toWorker src out = out.map response := by
  rw [toWorker, List.filter_eq_self.mpr fun r hr => by simpa using h r hr]

/-- A reply to a pull: its command and what it answers. -/
def answerReply (src : ℕ) (key : ℕ × ℕ) (p : ℕ × KVPairs Val) : Reply Val :=
  { kvId := key.1, ts := key.2, cmd := p.1, push := false, src, res := p.2 }

/-! ## The servers of a store -/

section Servers

variable {S : ℕ × ℕ → Type} [∀ p, StorageT (S p) Val] [Add Val] {tables : ℕ → RangeTable}
  {kvId n : ℕ} {isVector : ℕ → Bool}
  (V : ∀ i, StoreView (S (kvId, i)) Val (tables kvId) i (isVector i))

/-- The servers of a store are assign servers with a well-formed container each. -/
structure AssignServers (n : ℕ) (servers : ∀ p, Server (S p) Val) : Prop where
  server : ∀ i < n, servers (kvId, i) =
    .default ⟨i, (servers (kvId, i)).store, isVector i, true⟩
  good : ∀ i < n, (V i).Good (servers (kvId, i)).store

/-- The value server `i` holds for a key. -/
def heldBy (servers : ∀ p, Server (S p) Val) (i k : ℕ) : Val :=
  (V i).view (servers (kvId, i)).store k

/-- Every server of a store handles one message. -/
theorem exchange_range {servers : ∀ p, Server (S p) Val} {message : ℕ → Option (Request Val)}
    {next : ∀ i, Server (S (kvId, i)) Val} {out : ℕ → List (Reply Val)}
    (hnext : ∀ i < n, (servers (kvId, i)).receive (tables kvId) kvId (message i) =
      some (next i, out i)) :
    ∃ servers', exchange tables kvId servers ((List.range n).map message) =
        some (servers', (List.range n).flatMap out) ∧ ∀ i < n, servers' (kvId, i) = next i := by
  rw [exchange, zipIdx_map_range]
  suffices h : ∃ servers', run (fun servers x => deliver tables servers (kvId, x.2) x.1) servers
      ((List.range n).map fun i => (message i, i)) = some (servers', (List.range n).flatMap out) ∧
      (∀ i < n, servers' (kvId, i) = next i) ∧
      ∀ i, n ≤ i → servers' (kvId, i) = servers (kvId, i) by
    obtain ⟨servers', hrun, hdone, -⟩ := h
    exact ⟨servers', hrun, hdone⟩
  induction n with
  | zero => exact ⟨servers, rfl, by simp, fun _ _ => rfl⟩
  | succ n ih =>
      obtain ⟨servers', hrun, hdone, hrest⟩ := ih fun i hi => hnext i (by omega)
      refine ⟨Function.update servers' (kvId, n) (next n), ?_, ?_, ?_⟩
      · rw [List.range_succ, List.map_append, List.flatMap_append, List.map_singleton,
          List.flatMap_singleton]
        refine run_snoc hrun ?_
        simp only [deliver, hrest n le_rfl, hnext n (Nat.lt_succ_self n), Option.bind_eq_bind,
          Option.bind_some]
      · intro i hi
        by_cases hin : i = n
        · subst hin
          rw [Function.update_self]
        · rw [Function.update_of_ne (by simpa using hin)]
          exact hdone i (by omega)
      · intro i hi
        rw [Function.update_of_ne (by simp; omega)]
        exact hrest i (by omega)

omit [Add Val] in
theorem heldBy_congr {servers servers' : ∀ p, Server (S p) Val}
    (h : ∀ i, servers' (kvId, i) = servers (kvId, i)) : heldBy V servers' = heldBy V servers := by
  funext i k
  rw [heldBy, h i]
  rfl

omit [Add Val] in
theorem AssignServers.congr {servers servers' : ∀ p, Server (S p) Val}
    (hs : AssignServers V n servers) (h : ∀ i, servers' (kvId, i) = servers (kvId, i)) :
    AssignServers V n servers' := by
  constructor
  · intro i hi
    rw [h i]
    exact hs.server i hi
  · intro i hi
    rw [h i]
    exact hs.good i hi

omit [Add Val] in
theorem AssignServers.of_next {servers : ∀ p, Server (S p) Val}
    {next : ∀ i, Server (S (kvId, i)) Val} (hservers : ∀ i < n, servers (kvId, i) = next i)
    (hnext : ∀ i < n, ∃ store, next i = .default ⟨i, store, isVector i, true⟩ ∧ (V i).Good store) :
    AssignServers V n servers := by
  constructor
  · intro i hi
    obtain ⟨store, hstore, -⟩ := hnext i hi
    rw [hservers i hi, hstore]
    rfl
  · intro i hi
    obtain ⟨store, hstore, hgood⟩ := hnext i hi
    rw [hservers i hi, hstore]
    exact hgood

/-- **All servers handle their slices of a push** and then hold the entries. -/
theorem exchange_push {servers : ∀ p, Server (S p) Val} (hs : AssignServers V n servers)
    {message : ℕ → Option (Request Val)} {entries : ℕ → List (ℕ × Val)}
    (howned : ∀ i < n, ∀ p ∈ entries i, (V i).Owned p.1)
    (hone : ∀ i < n, ∀ p ∈ entries i, ∀ q ∈ entries i, p.1 = q.1 → p.2 = q.2)
    (hslice : ∀ i < n, IsPushSlice (tables kvId) (entries i) (message i)) :
    ∃ servers' out, exchange tables kvId servers ((List.range n).map message) =
        some (servers', out) ∧ AssignServers V n servers' ∧
      ∀ i < n, (∀ p ∈ entries i, heldBy V servers' i p.1 = p.2) ∧
        ∀ k, (V i).Owned k → k ∉ (entries i).map Prod.fst →
          heldBy V servers' i k = heldBy V servers i k := by
  have hreceive : ∀ i, ∃ (next : Server (S (kvId, i)) Val) (out : List (Reply Val)), i < n →
      (servers (kvId, i)).receive (tables kvId) kvId (message i) = some (next, out) ∧
        ∃ store, next = .default ⟨i, store, isVector i, true⟩ ∧ (V i).Good store ∧
          (∀ p ∈ entries i, (V i).view store p.1 = p.2) ∧
          ∀ k, (V i).Owned k → k ∉ (entries i).map Prod.fst →
            (V i).view store k = heldBy V servers i k := by
    intro i
    by_cases hi : i < n
    · obtain ⟨store, out, hhandle, hgood, hview, hrest⟩ := receive_push (V i) (hs.good i hi)
        (howned i hi) (hone i hi) (hslice i hi) kvId
      rw [← hs.server i hi] at hhandle
      exact ⟨_, out, fun _ => ⟨hhandle, store, rfl, hgood, hview, hrest⟩⟩
    · exact ⟨servers (kvId, i), [], fun h => absurd h hi⟩
  choose next out hnext using hreceive
  obtain ⟨servers', hexchange, hservers⟩ := exchange_range fun i hi => (hnext i hi).1
  refine ⟨servers', _, hexchange, .of_next V hservers fun i hi => ?_, fun i hi => ?_⟩
  · obtain ⟨store, hstore, hgood, -⟩ := (hnext i hi).2
    exact ⟨store, hstore, hgood⟩
  · obtain ⟨store, hstore, -, hview, hrest⟩ := (hnext i hi).2
    simp only [heldBy, hservers i hi, hstore]
    exact ⟨hview, hrest⟩

variable (ht : (tables kvId).Partitioned n)
  (hown : ∀ i < n, ∀ k, (tables kvId).keyBound n i ≤ k → k < (tables kvId).keyBound n (i + 1) →
    (V i).Owned k)
include ht hown

/-- The servers handle a push: every owner holds what was pushed, and the rest as before. -/
theorem exchange_pushMessage {servers : ∀ p, Server (S p) Val} (hs : AssignServers V n servers)
    {c : Call Val} (hc : c.FitsPush (tables kvId)) (src ts : ℕ) (f : Flags) :
    ∃ servers' out, exchange tables kvId servers
        ((List.range n).map (c.pushMessage (tables kvId) n src ts f)) = some (servers', out) ∧
      AssignServers V n servers' ∧
      (∀ p ∈ c.entries (tables kvId),
        heldBy V servers' ((tables kvId).owner p.1) p.1 = p.2) ∧
      ∀ k < (tables kvId).maxKey, k ∉ (c.entries (tables kvId)).map Prod.fst →
        heldBy V servers' ((tables kvId).owner k) k =
          heldBy V servers ((tables kvId).owner k) k := by
  have hone := entries_one ht hc
  obtain ⟨servers', out, hexchange, hs', hheld⟩ := exchange_push V hs
    (fun i hi p hp => hown i hi p.1 (entriesOf_bounds ht hc hp).1 (entriesOf_bounds ht hc hp).2)
    (fun i _ p hp q hq => hone p (mem_entries_of_entriesOf hp) q (mem_entries_of_entriesOf hq))
    (fun i _ => isPushSlice_pushMessage n src ts f hc i)
  refine ⟨servers', out, hexchange, hs', fun p hp => ?_, fun k hk hnot => ?_⟩
  · obtain ⟨hn, hmem⟩ := mem_entriesOf_owner ht hc hp
    exact (hheld _ hn).1 p hmem
  · obtain ⟨hn, hlo, hhi⟩ := ht.owner_spec hk
    refine (hheld _ hn).2 k (hown _ hn k hlo hhi) fun hmem => hnot ?_
    obtain ⟨p, hp, rfl⟩ := List.mem_map.mp hmem
    exact List.mem_map_of_mem (mem_entries_of_entriesOf hp)

/-- The servers handle a pull: those that are asked answer with what they hold. -/
theorem exchange_pullMessage {servers : ∀ p, Server (S p) Val} (hs : AssignServers V n servers)
    {c : Call Val} (hc : c.FitsPull (tables kvId)) (src ts : ℕ) (f : Flags) :
    ∃ (servers' : ∀ p, Server (S p) Val) (cmd : ℕ → ℕ), exchange tables kvId servers
        ((List.range n).map (c.pullMessage (tables kvId) n src ts f)) =
          some (servers', (c.asked (tables kvId) n).map fun i => answerReply src (kvId, ts)
            (cmd i, c.answer (tables kvId) n (heldBy V servers) i)) ∧
      (∀ i, cmd i ≤ 3) ∧ AssignServers V n servers' ∧
      ∀ i < n, ∀ k, (V i).Owned k → heldBy V servers' i k = heldBy V servers i k := by
  have hreceive : ∀ i, ∃ (next : Server (S (kvId, i)) Val) (out : List (Reply Val)) (cmd : ℕ),
      cmd ≤ 3 ∧ (i < n →
        (servers (kvId, i)).receive (tables kvId) kvId
            (c.pullMessage (tables kvId) n src ts f i) = some (next, out) ∧
        (∃ store, next = .default ⟨i, store, isVector i, true⟩ ∧ (V i).Good store ∧
          ∀ k, (V i).Owned k → (V i).view store k = heldBy V servers i k) ∧
        (c.part (tables kvId) n i = [] → out = []) ∧
        (c.part (tables kvId) n i ≠ [] → out = [answerReply src (kvId, ts)
          (cmd, c.answer (tables kvId) n (heldBy V servers) i)])) := by
    intro i
    by_cases hi : i < n
    · obtain ⟨store, out, hhandle, hgood, hview, hnone, hsome⟩ := receive_pull (V i) (hs.good i hi)
        true (fun k hk => hown i hi k (touched_bounds ht hc hk).1 (touched_bounds ht hc hk).2)
        (isSlice_pullMessage n src ts f hc i) kvId
      rw [← hs.server i hi] at hhandle
      by_cases hpart : c.part (tables kvId) n i = []
      · exact ⟨_, out, 0, by omega, fun _ => ⟨hhandle, ⟨store, rfl, hgood, hview⟩, hnone,
          fun hne => absurd hpart hne⟩⟩
      · obtain ⟨cmd, hcmd, hout⟩ := hsome hpart
        exact ⟨_, out, cmd, hcmd, fun _ => ⟨hhandle, ⟨store, rfl, hgood, hview⟩, hnone,
          fun _ => hout⟩⟩
    · exact ⟨servers (kvId, i), [], 0, by omega, fun h => absurd h hi⟩
  choose next out cmd hcmd hnext using hreceive
  obtain ⟨servers', hexchange, hservers⟩ := exchange_range fun i hi => (hnext i hi).1
  have hout : (List.range n).flatMap out = (c.asked (tables kvId) n).map fun i =>
      answerReply src (kvId, ts) (cmd i, c.answer (tables kvId) n (heldBy V servers) i) := by
    have hasked : (List.range n).flatMap out = (c.asked (tables kvId) n).flatMap out := by
      refine (flatMap_filter_eq fun i hi hempty => ?_).symm
      exact (hnext i (List.mem_range.mp hi)).2.2.1 (by simpa using hempty)
    rw [hasked, List.map_eq_flatMap]
    refine List.flatMap_congr fun i hi => ?_
    obtain ⟨hi, hpart⟩ := List.mem_filter.mp hi
    exact (hnext i (List.mem_range.mp hi)).2.2.2 (by simpa using hpart)
  rw [hout] at hexchange
  refine ⟨servers', cmd, hexchange, hcmd, .of_next V hservers fun i hi => ?_, fun i hi => ?_⟩
  · obtain ⟨store, hstore, hgood, -⟩ := (hnext i hi).2.1
    exact ⟨store, hstore, hgood⟩
  · obtain ⟨store, hstore, -, hview⟩ := (hnext i hi).2.1
    simp only [heldBy, hservers i hi, hstore]
    exact hview

/-- A valid push succeeds, and afterwards every owner holds what was pushed. -/
theorem push_call (src : ℕ) {w : World S Val} (hs : AssignServers V n w.servers) {c : Call Val}
    (hc : c.ValidPush (tables kvId)) (f : Flags) :
    ∃ w' : World S Val, worldStep tables src w (.call kvId c f) = some w' ∧
      AssignServers V n w'.servers ∧
      ∀ p ∈ c.entries (tables kvId), heldBy V w'.servers ((tables kvId).owner p.1) p.1 = p.2 := by
  obtain ⟨servers, out, hexchange, hs', hheld, -⟩ := exchange_pushMessage V ht hown hs hc.fits src
    (w.worker.newRequest kvId (c.asked (tables kvId) n).length).2 f
  refine ⟨⟨(w.worker.newRequest kvId (c.asked (tables kvId) n).length).1, servers,
    w.inbox ++ toWorker src out⟩, ?_, hs', hheld⟩
  simp only [worldStep, Call.issue, slices_push ht src f hc.fits, hc.fits.callback,
    Option.bind_eq_bind, Option.bind_some, hexchange]

/-- A valid pull: every server asked has its answer on the way. -/
theorem pull_call (src : ℕ) {w : World S Val} (hs : AssignServers V n w.servers) {c : Call Val}
    (hc : c.ValidPull (tables kvId)) {cb : Callback Val} (hcb : c.callback = some cb) (f : Flags) :
    ∃ (w' : World S Val) (cmd : ℕ → ℕ), worldStep tables src w (.call kvId c f) = some w' ∧
      w'.worker = (w.worker.newRequest kvId (c.asked (tables kvId) n).length).1.addCallback
        (kvId, (slot w.worker.tracker kvId).length) cb ∧
      (∀ i, cmd i ≤ 3) ∧
      w'.inbox = w.inbox ++ (c.asked (tables kvId) n).map fun i =>
        response (answerReply src (kvId, (slot w.worker.tracker kvId).length)
          (cmd i, c.answer (tables kvId) n (heldBy V w.servers) i)) := by
  set ts := (slot w.worker.tracker kvId).length with hts
  obtain ⟨servers, cmd, hexchange, hcmd, -⟩ := exchange_pullMessage V ht hown hs hc.fits src
    (w.worker.newRequest kvId (c.asked (tables kvId) n).length).2 f
  refine ⟨⟨(w.worker.newRequest kvId (c.asked (tables kvId) n).length).1.addCallback (kvId, ts) cb,
    servers, w.inbox ++ toWorker src ((c.asked (tables kvId) n).map fun i =>
      answerReply src (kvId, ts) (cmd i, c.answer (tables kvId) n (heldBy V w.servers) i))⟩, cmd, ?_,
    rfl, hcmd, ?_⟩
  · simp only [worldStep, Call.issue, slices_pull ht src f hc.fits, hcb, Option.bind_eq_bind,
      Option.bind_some, hexchange]
    rfl
  · rw [toWorker_eq fun r hr => by
      obtain ⟨i, -, rfl⟩ := List.mem_map.mp hr
      rfl, List.map_map]
    rfl

end Servers

/-! ## A pull and its replies -/

/-- What a pull has left in the world: the answers on their way and the recorded ones are
`answers`; the callback waits for the last of them and has then left `dest`. -/
structure Pending (src : ℕ) (key : ℕ × ℕ) (answers : List (KVPairs Val)) (cb : Callback Val)
    (dest : Dest Val) (tr : Trace Val) (todo : List (ℕ × KVPairs Val))
    (recorded : List (KVPairs Val)) : Prop where
  replies : tr.replies = todo.map fun p => response (answerReply src key p)
  cmd_le : ∀ p ∈ todo, p.1 ≤ 3
  perm : (recorded ++ todo.map Prod.snd).Perm answers
  entry : tr.entry = some (answers.length, recorded.length)
  waiting : todo ≠ [] → tr.callback = some cb ∧ tr.recv.getD (.kvs []) = .kvs recorded ∧
    tr.finished = []
  done : todo = [] → tr.finished = [dest]

section Pending

variable {S : ℕ × ℕ → Type} [∀ p, StorageT (S p) Val] [Add Val] {tables : ℕ → RangeTable}
  {src : ℕ} {key : ℕ × ℕ} {answers : List (KVPairs Val)} {cb : Callback Val} {dest : Dest Val}
  {w w' : World S Val} {todo : List (ℕ × KVPairs Val)} {recorded : List (KVPairs Val)}

/-- One of the replies to the pull arrives. -/
theorem Pending.arrive (hkeys : ∀ res ∈ answers, res.keys ≠ [])
    (hrun : ∀ recv, recv.Perm answers → cb.run (tables key.1) (.kvs recv) = some dest)
    (h : Pending src key answers cb dest (w.trace key) todo recorded) {j : ℕ} {bin : BinStream Val}
    (hbin : w.inbox[j]? = some bin) (hheader : header bin = some key) :
    ∃ w' todo' recorded', worldStep tables src w (.arrive j) = some w' ∧
      Pending src key answers cb dest (w'.trace key) todo' recorded' := by
  obtain ⟨l₁, l₂, hl, herase⟩ := exists_eraseIdx hbin
  have hfilter := h.replies
  simp only [World.trace, hl, List.filter_append, List.filter_cons, hheader, decide_true,
    if_true] at hfilter
  obtain ⟨todo₁, rest, rfl, hfirst, hrest⟩ := List.map_eq_append_iff.mp hfilter.symm
  obtain ⟨⟨cmd, res⟩, todo₂, rfl, rfl, hlast⟩ := List.map_eq_cons_iff.mp hrest
  have hcmd : cmd ≤ 3 := h.cmd_le (cmd, res) (by simp)
  obtain ⟨hcb, hrecv, hfinished⟩ := h.waiting (by simp)
  -- The reply moves from the ones on their way to the recorded ones.
  have hperm : (recorded ++ [res] ++ (todo₁ ++ todo₂).map Prod.snd).Perm answers := by
    refine List.Perm.trans ?_ h.perm
    rw [List.append_assoc, List.map_append, List.map_append]
    refine List.Perm.append_left _ ?_
    rw [List.map_cons, List.singleton_append]
    exact List.perm_middle.symm
  have hlen := hperm.length_eq
  simp only [List.length_append, List.length_singleton, List.length_map] at hlen
  have hres : res.keys ≠ [] := hkeys res (hperm.subset (by simp))
  have hall : recorded.length + 1 = answers.length →
      cb.run (tables key.1) (.kvs (recorded ++ [res])) = some dest := by
    intro hcount
    have hnil : todo₁ ++ todo₂ = [] := List.length_eq_zero_iff.mp (by
      rw [List.length_append]
      omega)
    rw [hnil] at hperm
    exact hrun _ (by simpa using hperm)
  have hreceive := KVWorker.receive_response tables w.worker src dest hcmd hres h.entry hrecv hcb hall
  set worker := if recorded.length + 1 = answers.length then _ else _ with hworker
  refine ⟨⟨worker.countResponse key, w.servers, w.inbox.eraseIdx j⟩, todo₁ ++ todo₂,
    recorded ++ [res], ?_, ?_⟩
  · simp only [worldStep, hbin, Option.bind_eq_bind, Option.bind_some]
    have hreceive' : w.worker.receive tables (response (answerReply src key (cmd, res))) =
      some (key, worker) := hreceive
    rw [hreceive']
    rfl
  have htracker : worker.tracker = w.worker.tracker := by
    rw [hworker]
    split <;> rfl
  have hentry : worker.entry key = some (answers.length, recorded.length) := by
    rw [← h.entry, KVWorker.entry, htracker]
    rfl
  constructor
  · simp [World.trace, herase, hfirst, hlast]
  · intro p hp
    exact h.cmd_le p (by simp at hp ⊢; tauto)
  · exact hperm
  · simp [World.trace, KVWorker.entry_countResponse, hentry]
  · intro hmore
    have hcount : recorded.length + 1 ≠ answers.length := by
      have := List.length_pos_of_ne_nil hmore
      rw [List.length_append] at this
      omega
    rw [if_neg hcount] at hworker
    rw [hworker]
    exact ⟨hcb, by simp [World.trace, KVWorker.countResponse], hfinished⟩
  · intro hnil
    have hcount : recorded.length + 1 = answers.length := by
      have := congrArg List.length hnil
      rw [List.length_append, List.length_nil] at this
      omega
    rw [if_pos hcount] at hworker
    rw [hworker]
    have hnone : w.worker.results key = [] := hfinished
    simp only [World.trace, KVWorker.results, KVWorker.countResponse, List.filter_append,
      List.map_append] at hnone ⊢
    simp [hnone]

/-- Whatever happens next. -/
theorem Pending.step (hkeys : ∀ res ∈ answers, res.keys ≠ [])
    (hrun : ∀ recv, recv.Perm answers → cb.run (tables key.1) (.kvs recv) = some dest)
    (h : Pending src key answers cb dest (w.trace key) todo recorded) {e : Event Val}
    (he : e.Foreign src) (hdefault : ∀ i, (w.servers (key.1, i)).isSSP = false)
    (hstep : worldStep tables src w e = some w') :
    ∃ todo' recorded', Pending src key answers cb dest (w'.trace key) todo' recorded' := by
  rcases worldStep_trace key hstep he hdefault with hsame | ⟨hnew, -⟩ | ⟨j, bin, rfl, hbin, hheader, -⟩
  · rw [hsame]
    exact ⟨todo, recorded, h⟩
  · -- The request was made before.
    have hentry : (slot w.worker.tracker key.1)[key.2]? = some _ := h.entry
    rw [hnew, List.getElem?_eq_none le_rfl] at hentry
    cases hentry
  · obtain ⟨w₁, todo', recorded', hstep', h'⟩ := h.arrive hkeys hrun hbin hheader
    obtain rfl := Option.some.inj (hstep'.symm.trans hstep)
    exact ⟨todo', recorded', h'⟩

/-- Whatever happens from then on. -/
theorem Pending.run (hkeys : ∀ res ∈ answers, res.keys ≠ [])
    (hrun : ∀ recv, recv.Perm answers → cb.run (tables key.1) (.kvs recv) = some dest)
    {events : List (Event Val)} (he : ∀ e ∈ events, e.Foreign src)
    (hdefault : ∀ i, (w.servers (key.1, i)).isSSP = false)
    (h : Pending src key answers cb dest (w.trace key) todo recorded)
    (hevents : events.foldlM (worldStep tables src) w = some w') :
    ∃ todo' recorded', Pending src key answers cb dest (w'.trace key) todo' recorded' := by
  induction events generalizing w todo recorded with
  | nil =>
      obtain rfl := Option.some.inj hevents
      exact ⟨todo, recorded, h⟩
  | cons e events ih =>
      rw [List.foldlM_cons] at hevents
      obtain ⟨w₁, hstep, hrest⟩ := Option.bind_eq_some_iff.mp hevents
      obtain ⟨todo₁, recorded₁, h₁⟩ := h.step hkeys hrun (he e (by simp)) hdefault hstep
      apply ih (fun e he' => he e (by simp [he'])) _ h₁ hrest
      intro i
      rw [worldStep_isSSP hstep, hdefault i]

/-- The world delivers `dest` to a request: no reply to it fails, the memory of the request
is untouched or holds `dest`, it holds `dest` when `Wait` returns, and `Wait` returns when no
reply is on its way. -/
def Delivers (tables : ℕ → RangeTable) (src : ℕ) (w : World S Val) (key : ℕ × ℕ)
    (dest : Dest Val) : Prop :=
  (∀ (j : ℕ) (bin : BinStream Val), w.inbox[j]? = some bin → header bin = some key →
    ∃ w', worldStep tables src w (.arrive j) = some w') ∧
  (w.worker.results key = [] ∨ w.worker.results key = [dest]) ∧
  (w.worker.Returns key → w.worker.results key = [dest]) ∧
  ((∀ bin ∈ w.inbox, header bin ≠ some key) → w.worker.Returns key)

theorem Pending.delivers (hkeys : ∀ res ∈ answers, res.keys ≠ [])
    (hrun : ∀ recv, recv.Perm answers → cb.run (tables key.1) (.kvs recv) = some dest)
    (h : Pending src key answers cb dest (w.trace key) todo recorded) :
    Delivers tables src w key dest := by
  have hlen := h.perm.length_eq
  rw [List.length_append, List.length_map] at hlen
  have hentry : w.worker.entry key = some (answers.length, recorded.length) := h.entry
  refine ⟨fun j bin hbin hheader => ?_, ?_, ?_, ?_⟩
  · obtain ⟨w', _, _, hstep, -⟩ := h.arrive hkeys hrun hbin hheader
    exact ⟨w', hstep⟩
  · by_cases htodo : todo = []
    · exact .inr (h.done htodo)
    · exact .inl (h.waiting htodo).2.2
  · intro hreturns
    obtain ⟨m, hm⟩ := hreturns
    obtain ⟨h₁, h₂⟩ := Prod.mk.inj (Option.some.inj (hentry.symm.trans hm))
    exact h.done (List.length_eq_zero_iff.mp (by omega))
  · intro hnone
    have hfilter : w.inbox.filter (fun bin => header bin = some key) = [] := by
      rw [List.filter_eq_nil_iff]
      exact fun bin hbin => by simpa using hnone bin hbin
    have htodo : todo = [] := List.map_eq_nil_iff.mp (h.replies.symm.trans hfilter)
    rw [htodo, List.length_nil, Nat.add_zero] at hlen
    exact ⟨_, hlen ▸ hentry⟩

end Pending

/-! ## A push and then a pull -/

theorem map_eq_of_zip {α β : Type} {f : α → β} {xs : List α} {ys : List β}
    (hlen : xs.length = ys.length) (h : ∀ p ∈ xs.zip ys, f p.1 = p.2) : xs.map f = ys := by
  calc xs.map f = ((xs.zip ys).map Prod.fst).map f := by rw [List.map_fst_zip hlen.le]
    _ = (xs.zip ys).map Prod.snd := by
        rw [List.map_map]
        exact List.map_congr_left h
    _ = ys := List.map_snd_zip hlen.ge

theorem result_pull {t : RangeTable} {keys : List ℕ} {vals : List Val}
    (hc : (Call.push keys vals).ValidPush t) {held : ℕ → ℕ → Val}
    (hheld : ∀ p ∈ (Call.push keys vals).entries t, held (t.owner p.1) p.1 = p.2) :
    (Call.pull keys : Call Val).result t held = .vals vals :=
  congrArg Dest.vals (map_eq_of_zip hc.2.2.2 hheld)

theorem result_pullChunks {t : RangeTable} {n : ℕ} (ht : t.Partitioned n) {ids : List ℕ}
    {chunks : List (List Val)} (hc : (Call.pushChunks ids chunks).ValidPush t)
    {held : ℕ → ℕ → Val}
    (hheld : ∀ p ∈ (Call.pushChunks ids chunks).entries t, held (t.owner p.1) p.1 = p.2)
    (old : List (List Val)) : (Call.pullChunks ids old).result t held = .chunks chunks := by
  have hvalid := hc
  obtain ⟨-, -, hlt, hlen, hfull⟩ := hc
  refine congrArg Dest.chunks (map_eq_of_zip hlen fun x hx => ?_)
  rw [← hfull x hx]
  refine map_eq_of_zip (by simp) fun p hp => ?_
  rw [← owner_chunkKeys ht hlt (List.of_mem_zip hx).1 (chunkPairs_key ht hvalid.fits hx hp)]
  exact hheld p (List.mem_flatMap.mpr ⟨x, hx, hp⟩)

/-- The event does nothing to the servers of a store. -/
def Event.Spares (kvId : ℕ) : Event Val → Prop
  | call kvId' _ _ => kvId' ≠ kvId
  | external p _ => p.1 ≠ kvId
  | arrive _ => True

section RoundTrip

variable {S : ℕ × ℕ → Type} [∀ p, StorageT (S p) Val] [Add Val] {tables : ℕ → RangeTable} {src : ℕ}

theorem worldStep_spares {w w' : World S Val} {e : Event Val} {kvId : ℕ} (he : e.Spares kvId)
    (h : worldStep tables src w e = some w') (i : ℕ) :
    w'.servers (kvId, i) = w.servers (kvId, i) := by
  cases e with
  | call kvId' c f =>
      simp only [worldStep, Option.bind_eq_bind, Option.bind_eq_some_iff, Option.some.injEq] at h
      obtain ⟨p, -, ⟨servers, out⟩, hexchange, rfl⟩ := h
      exact (exchange_spec hexchange).2.1 _ (Ne.symm he)
  | external p r =>
      simp only [worldStep, Option.bind_eq_bind, Option.bind_eq_some_iff, Option.some.injEq] at h
      obtain ⟨⟨servers, out⟩, hdeliver, rfl⟩ := h
      refine (deliver_spec hdeliver).2.1 _ ?_
      rintro rfl
      exact he rfl
  | arrive j =>
      simp only [worldStep, Option.bind_eq_bind, Option.bind_eq_some_iff, Option.some.injEq] at h
      obtain ⟨bin, -, p, -, rfl⟩ := h
      rfl

theorem run_spares {w w' : World S Val} {events : List (Event Val)} {kvId : ℕ}
    (he : ∀ e ∈ events, e.Spares kvId) (h : events.foldlM (worldStep tables src) w = some w')
    (i : ℕ) : w'.servers (kvId, i) = w.servers (kvId, i) := by
  induction events generalizing w with
  | nil =>
      obtain rfl := Option.some.inj h
      rfl
  | cons e events ih =>
      rw [List.foldlM_cons] at h
      obtain ⟨w₁, hstep, hrest⟩ := Option.bind_eq_some_iff.mp h
      rw [ih (fun e he' => he e (by simp [he'])) hrest, worldStep_spares (he e (by simp)) hstep]

/-- What a call `c` pushes, a later call `c'` gets: with any flags of both, with anything at
other stores in between and with anything afterwards, both calls succeed and `dest` is
delivered to the second. -/
def Returned (tables : ℕ → RangeTable) (src : ℕ) (w : World S Val) (kvId : ℕ) (c c' : Call Val)
    (dest : Dest Val) : Prop :=
  ∀ (f f' : Flags) (between after : List (Event Val)),
    (∀ e ∈ between, e.Foreign src ∧ e.Spares kvId) → (∀ e ∈ after, e.Foreign src) →
    (∃ w₁, worldStep tables src w (.call kvId c f) = some w₁) ∧
    ∀ w₂, (.call kvId c f :: between).foldlM (worldStep tables src) w = some w₂ →
      (∃ w₃, worldStep tables src w₂ (.call kvId c' f') = some w₃) ∧
      ∀ w₄, (.call kvId c' f' :: after).foldlM (worldStep tables src) w₂ = some w₄ →
        Delivers tables src w₄ (kvId, (slot w₂.worker.tracker kvId).length) dest

variable {kvId n : ℕ} {isVector : ℕ → Bool}
  (V : ∀ i, StoreView (S (kvId, i)) Val (tables kvId) i (isVector i))
  (ht : (tables kvId).Partitioned n)
  (hown : ∀ i < n, ∀ k, (tables kvId).keyBound n i ≤ k → k < (tables kvId).keyBound n (i + 1) →
    (V i).Owned k)
include ht hown

/-- A valid pull is pending once it is made. -/
theorem pull_pending {w : World S Val} (hfresh : Fresh kvId w) (hs : AssignServers V n w.servers)
    {c : Call Val} (hc : c.ValidPull (tables kvId)) {cb : Callback Val} (hcb : c.callback = some cb)
    (f : Flags) :
    ∃ w', worldStep tables src w (.call kvId c f) = some w' ∧ ∃ todo,
      Pending src (kvId, (slot w.worker.tracker kvId).length)
        ((c.asked (tables kvId) n).map (c.answer (tables kvId) n (heldBy V w.servers))) cb
        (c.result (tables kvId) (heldBy V w.servers))
        (w'.trace (kvId, (slot w.worker.tracker kvId).length)) todo [] := by
  obtain ⟨w', cmd, hstep, hworker, hcmd, hinbox⟩ := pull_call V ht hown src hs hc hcb f
  set key := (kvId, (slot w.worker.tracker kvId).length) with hkey
  have hblank : w.trace key = .blank := hfresh _ (List.getElem?_eq_none le_rfl)
  have hreplies : w.inbox.filter (fun bin => header bin = some key) = [] :=
    congrArg Trace.replies hblank
  refine ⟨w', hstep, (c.asked (tables kvId) n).map fun i =>
    (cmd i, c.answer (tables kvId) n (heldBy V w.servers) i), ?_⟩
  constructor
  · simp only [World.trace, hinbox, List.filter_append, hreplies, List.nil_append, List.map_map]
    rw [List.filter_eq_self.mpr]
    · rfl
    · intro bin hbin
      obtain ⟨i, -, rfl⟩ := List.mem_map.mp hbin
      simp [answerReply]
  · intro p hp
    obtain ⟨i, -, rfl⟩ := List.mem_map.mp hp
    exact hcmd i
  · rw [List.nil_append, List.map_map]
    exact List.Perm.refl _
  · have hentry : w'.worker.entry key = (w.worker.newRequest kvId
        (c.asked (tables kvId) n).length).1.entry key := by
      rw [hworker]
      rfl
    simp only [World.trace, hentry, List.length_map]
    exact (KVWorker.entry_newRequest _ _ _ _).trans (if_pos hkey)
  · intro _
    have hrecv : w.worker.recvKvs key = none := congrArg Trace.recv hblank
    have hfinished : w.worker.results key = [] := congrArg Trace.finished hblank
    refine ⟨?_, ?_, ?_⟩
    · simp [World.trace, hworker, KVWorker.addCallback]
    · simp [World.trace, hworker, KVWorker.addCallback, KVWorker.newRequest, hrecv]
    · simp only [World.trace, hworker]
      exact hfinished
  · intro hnil
    exact absurd (List.map_eq_nil_iff.mp hnil) (asked_ne_nil ht hc)

/-- **What was pushed is pulled**, if the result of the pull is a function of the entries the
push wrote. -/
theorem returned_of_entries {w : World S Val} (hfresh : Fresh kvId w)
    (hdefault : ∀ i, (w.servers (kvId, i)).isSSP = false) (hs : AssignServers V n w.servers)
    {c c' : Call Val} (hc : c.ValidPush (tables kvId)) (hc' : c'.ValidPull (tables kvId))
    {dest : Dest Val} (hresult : ∀ held : ℕ → ℕ → Val,
      (∀ p ∈ c.entries (tables kvId), held ((tables kvId).owner p.1) p.1 = p.2) →
        c'.result (tables kvId) held = dest) :
    Returned tables src w kvId c c' dest := by
  intro f f' between after hbetween hafter
  obtain ⟨w₁, hpush, hs₁, hheld⟩ := push_call V ht hown src hs hc f
  refine ⟨⟨w₁, hpush⟩, fun w₂ hrun₂ => ?_⟩
  -- The servers of the store still hold the entries when the pull is made.
  rw [List.foldlM_cons] at hrun₂
  obtain ⟨w₁', hpush', hrun₂⟩ := Option.bind_eq_some_iff.mp hrun₂
  obtain rfl := Option.some.inj (hpush.symm.trans hpush')
  have hsame := run_spares (fun e he => (hbetween e he).2) hrun₂
  have hdefault₁ : ∀ i, (w₁.servers (kvId, i)).isSSP = false := fun i => by
    rw [worldStep_isSSP hpush, hdefault i]
  have hfresh₁ : Fresh kvId w₁ := hfresh.step hdefault (by trivial) hpush
  obtain ⟨hfresh₂, hdefault₂⟩ := hfresh₁.run hdefault₁ (fun e he => (hbetween e he).1) hrun₂
  rw [← heldBy_congr V hsame] at hheld
  obtain ⟨cb, hcb⟩ := exists_callback hc'
  obtain ⟨w₃, hpull, hpending⟩ := pull_pending V ht hown hfresh₂ (hs₁.congr V hsame) hc' hcb f'
  refine ⟨⟨w₃, hpull⟩, fun w₄ hrun₄ => ?_⟩
  rw [List.foldlM_cons] at hrun₄
  obtain ⟨w₃', hpull', hrun₄⟩ := Option.bind_eq_some_iff.mp hrun₄
  obtain rfl := Option.some.inj (hpull.symm.trans hpull')
  obtain ⟨todo, hpending⟩ := hpending
  have hkeys : ∀ res ∈ (c'.asked (tables kvId) n).map
      (c'.answer (tables kvId) n (heldBy V w₂.servers)), res.keys ≠ [] := by
    intro res hres
    obtain ⟨i, hi, rfl⟩ := List.mem_map.mp hres
    simpa [Call.answer] using (List.mem_filter.mp hi).2
  have hcallback : ∀ recv, recv.Perm ((c'.asked (tables kvId) n).map
      (c'.answer (tables kvId) n (heldBy V w₂.servers))) →
      cb.run (tables kvId) (.kvs recv) = some dest := by
    intro recv hperm
    rw [run_callback ht hc'.fits hcb hperm, hresult _ hheld]
  rw [hresult _ hheld] at hpending
  obtain ⟨todo', recorded', h⟩ := hpending.run hkeys hcallback hafter (fun i => by
    rw [worldStep_isSSP hpull, hdefault₂ i]) hrun₄
  exact h.delivers hkeys hcallback

end RoundTrip

/-- The keys between the bounds of a server are those of its range. -/
theorem owned_of_ranges {S : ℕ × ℕ → Type} [∀ p, StorageT (S p) Val] {t : RangeTable} {kvId n : ℕ}
    {isVector : ℕ → Bool} (V : ∀ i, StoreView (S (kvId, i)) Val t i (isVector i))
    (ht : t.Partitioned n)
    (hown : ∀ i r k, t.serverKeyRanges[i]? = some r → r.begin_ ≤ k → k < r.end_ → (V i).Owned k) :
    ∀ i < n, ∀ k, t.keyBound n i ≤ k → k < t.keyBound n (i + 1) → (V i).Owned k := by
  intro i hi k hlo hhi
  have hlen : i < t.serverKeyRanges.length := by rwa [ht.serverKeyRanges_length]
  refine hown i _ k (List.getElem?_eq_getElem hlen) ?_ ?_
  · rwa [ht.serverKeyRanges_getElem]
  · rwa [ht.serverKeyRanges_getElem]

/-! ## Encodings -/

/-- Two empty assign servers for every store and a new worker. -/
def emptyWorld : World (fun _ => MapStore ℤ) ℤ :=
  ⟨.new, fun p => .default ⟨p.2, ⟨fun _ => none⟩, false, true⟩, []⟩

/-- A push to both servers by pointer to the first, and the second acknowledgement. -/
def firstPush : List (Event ℤ) :=
  [.call 0 (.push [1, 8] [5, 6]) ⟨false, true, true, fun i => i == 0⟩, .arrive 1]

end FlexPS.KVStore
