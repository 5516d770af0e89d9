import FlexPS.KVStore.ServerLockstep

/-!
# Calls, servers and replies

One worker makes calls to stores held by default servers or by SSP servers.  A server
handles a message when it is sent: the messages of one worker to one server arrive in the
order they were sent, and requests of others may be handled at any time in between, so every
order in which a server can handle messages is the order of some run.  Replies arrive at the
worker in any order.

## Main definitions

* `Server` — a default or an SSP server.
* `World`, `Event`, `worldStep` — the worker, the servers and the replies on their way.
* `Server.Takes` — the calls that are made to a server.
* `encodings_lockstep` — a run and the same run in the plain encoding.
-/

namespace FlexPS.KVStore

open Lib

variable {Val : Type}

/-! ## Servers -/

/-- A server of one of two families. -/
inductive Server (S Val : Type) where
  | default (srv : DefaultUpdateServer S)
  | ssp (srv : SSPServer S Val)

namespace Server

variable {S : Type}

/-- `Process` of either family. -/
def handle [StorageT S Val] [Add Val] (t : RangeTable) (kvId : ℕ) :
    Server S Val → Request Val → Option (Server S Val × List (Reply Val))
  | default srv, r => (srv.handle t kvId r).map fun p => (default p.1, p.2)
  | ssp srv, r => (srv.handle t kvId r).map fun p => (ssp p.1, p.2)

/-- The parameters a server holds. -/
def store : Server S Val → S
  | default srv => srv.store
  | ssp srv => srv.store

/-- The family. -/
def isSSP : Server S Val → Bool
  | default _ => false
  | ssp _ => true

/-- `PullChunksWithMinClock` is a call to SSP servers, the other calls go to default
servers. -/
def Takes (isSSP : Bool) : Call Val → Prop
  | .pullChunksWithMinClock _ _ => isSSP = true
  | _ => isSSP = false

/-- Two servers that differ in empty pulls and encodings only. -/
inductive Same (t : RangeTable) : Server S Val → Server S Val → Prop
  | default (a : DefaultUpdateServer S) : Same t (default a) (default a)
  | ssp {a b : SSPServer S Val} : SSPServer.Same t a b → Same t (ssp a) (ssp b)

theorem Same.refl (t : RangeTable) (a : Server S Val) : Same t a a := by
  cases a with
  | default a => exact .default a
  | ssp a => exact .ssp (.refl t a)

theorem Same.store_eq {t : RangeTable} {a b : Server S Val} (h : Same t a b) :
    a.store = b.store := by
  cases h with
  | default a => rfl
  | ssp h =>
      obtain ⟨_, _, rfl, -, -⟩ := h
      rfl

/-- Two servers of the given family that differ in empty pulls and encodings only. -/
def SameKind (t : RangeTable) (isSSP : Bool) (a b : Server S Val) : Prop :=
  Same t a b ∧ a.isSSP = isSSP

variable [StorageT S Val] [Add Val] {t : RangeTable} {isSSP : Bool} {a b : Server S Val}

/-- A message, or nothing, for a server. -/
def receive (t : RangeTable) (kvId : ℕ) (a : Server S Val) :
    Option (Request Val) → Option (Server S Val × List (Reply Val))
  | none => some (a, [])
  | some r => a.handle t kvId r

/-- A request that both servers get. -/
theorem handle_same (h : SameKind t isSSP a b) (kvId : ℕ) (r : Request Val) :
    Option.Rel (Outcome (SameKind t isSSP) Alike) (a.handle t kvId r) (b.handle t kvId r) := by
  obtain ⟨hsame, rfl⟩ := h
  cases hsame with
  | default a =>
      refine rel_map (rel_refl (R := Eq) (fun _ => rfl) _) fun p _ hp => ?_
      subst hp
      exact ⟨⟨.default _, rfl⟩, List.forall₂_same.mpr fun r _ => .refl r⟩
  | ssp h =>
      refine rel_map (SSPServer.handle_same h kvId r) fun p q hpq => ?_
      exact ⟨⟨.ssp hpq.1, rfl⟩, hpq.2⟩

/-- **A slice of a call in two encodings**, or left out where it is empty. -/
theorem receive_slot (h : SameKind t isSSP a b) (kvId : ℕ) {c : Call Val} (hc : Takes isSSP c)
    {m m' : Option (Request Val)} (hm : Slot (c.Recodes t) m m') :
    Option.Rel (Outcome (SameKind t isSSP) Alike) (a.receive t kvId m) (b.receive t kvId m') := by
  obtain ⟨hsame, rfl⟩ := h
  cases hsame with
  | default a =>
      have hrecodes : c.Recodes t = Recoded t := by
        cases c with
        | pullChunksWithMinClock _ _ => cases hc
        | push _ _ => rfl
        | pull _ => rfl
        | pushChunks _ _ => rfl
        | pullChunks _ _ => rfl
      rw [hrecodes] at hm
      cases hm with
      | skip hr hbin =>
          simp only [receive, handle, a.handle_empty hr hbin, Option.map_some]
          exact .some ⟨⟨.default a, rfl⟩, .nil⟩
      | sent hr =>
          refine rel_map (a.handle_recoded hr kvId) fun p q hpq => ?_
          obtain ⟨hsrv, hout⟩ := hpq
          exact ⟨⟨by rw [hsrv]; exact .default _, rfl⟩, hout⟩
  | ssp h =>
      have hrecodes : c.Recodes t = RecodedClock t := by
        cases c with
        | pullChunksWithMinClock _ _ => rfl
        | push _ _ => cases hc
        | pull _ => cases hc
        | pushChunks _ _ => cases hc
        | pullChunks _ _ => cases hc
      rw [hrecodes] at hm
      cases hm with
      | skip hr hbin =>
          refine rel_map (f := fun p => (ssp p.1, p.2)) (SSPServer.handle_empty h kvId hr hbin)
            fun p q hpq => ?_
          exact ⟨⟨.ssp hpq.1, rfl⟩, hpq.2⟩
      | sent hr =>
          refine rel_map (SSPServer.handle_recoded h kvId hr) fun p q hpq => ?_
          exact ⟨⟨.ssp hpq.1, rfl⟩, hpq.2⟩

end Server

/-! ## The world -/

/-- The worker, all servers by store and number, and the replies on their way to the
worker. -/
structure World (S : ℕ × ℕ → Type) (Val : Type) where
  worker : KVWorker Val
  servers : ∀ p, Server (S p) Val
  inbox : List (BinStream Val)

/-- What happens: a call of the worker, a request of somebody else, or the arrival of one of
the replies on their way. -/
inductive Event (Val : Type) where
  | call (kvId : ℕ) (c : Call Val) (f : Flags)
  | external (p : ℕ × ℕ) (r : Request Val)
  | arrive (j : ℕ)

/-- The event in the plain encoding. -/
def Event.plain : Event Val → Event Val
  | call kvId c f => call kvId c f.plain
  | e => e

section World

variable {S : ℕ × ℕ → Type} [∀ p, StorageT (S p) Val] [Add Val] (tables : ℕ → RangeTable) (src : ℕ)

/-- A message for one of the servers. -/
def deliver (servers : ∀ p, Server (S p) Val) (p : ℕ × ℕ) (m : Option (Request Val)) :
    Option ((∀ p, Server (S p) Val) × List (Reply Val)) := do
  let (srv, out) ← (servers p).receive (tables p.1) p.1 m
  some (Function.update servers p srv, out)

/-- The messages of a call, one server after the other. -/
def exchange (kvId : ℕ) (servers : ∀ p, Server (S p) Val) (messages : List (Option (Request Val))) :
    Option ((∀ p, Server (S p) Val) × List (Reply Val)) :=
  run (fun servers x => deliver tables servers (kvId, x.2) x.1) servers messages.zipIdx

/-- The replies that go to the worker. -/
def toWorker (out : List (Reply Val)) : List (BinStream Val) :=
  (out.filter fun r => r.src = src).map response

/-- One event. -/
def worldStep (w : World S Val) : Event Val → Option (World S Val)
  | .call kvId c f => do
      let (_, worker, messages) ← c.issue tables src w.worker kvId f
      let (servers, out) ← exchange tables kvId w.servers messages
      some { worker, servers, inbox := w.inbox ++ toWorker src out }
  | .external p r => do
      let (servers, out) ← deliver tables w.servers p (some r)
      some { w with servers, inbox := w.inbox ++ toWorker src out }
  | .arrive j => do
      let bin ← w.inbox[j]?
      let (key, worker) ← w.worker.receive tables bin
      some { w with worker := worker.countResponse key, inbox := w.inbox.eraseIdx j }

/-! ## Two runs in lockstep -/

/-- The servers of two worlds, of the given families, differ in empty pulls and encodings
only. -/
def SameServers (isSSP : ℕ × ℕ → Bool) (a b : ∀ p, Server (S p) Val) : Prop :=
  ∀ p, (a p).SameKind (tables p.1) (isSSP p) (b p)

/-- The worlds look the same to the worker. -/
structure SameWorld (isSSP : ℕ × ℕ → Bool) (a b : World S Val) : Prop where
  worker : a.worker = b.worker
  servers : SameServers tables isSSP a.servers b.servers
  inbox : List.Forall₂ SameArrival a.inbox b.inbox

variable {tables} {isSSP : ℕ × ℕ → Bool}

omit [∀ p, StorageT (S p) Val] [Add Val] in
theorem SameServers.update {a b : ∀ p, Server (S p) Val} (h : SameServers tables isSSP a b)
    {p : ℕ × ℕ} {x y : Server (S p) Val} (hxy : x.SameKind (tables p.1) (isSSP p) y) :
    SameServers tables isSSP (Function.update a p x) (Function.update b p y) := by
  intro q
  by_cases hq : q = p
  · subst hq
    simpa using hxy
  · simpa [hq] using h q

theorem deliver_same {a b : ∀ p, Server (S p) Val} (h : SameServers tables isSSP a b) (p : ℕ × ℕ)
    {m m' : Option (Request Val)}
    (hm : Option.Rel (Outcome ((Server.SameKind (tables p.1) (isSSP p))) Alike)
      ((a p).receive (tables p.1) p.1 m) ((b p).receive (tables p.1) p.1 m')) :
    Option.Rel (Outcome (SameServers tables isSSP) Alike) (deliver tables a p m)
      (deliver tables b p m') := by
  refine rel_bind hm fun x y hxy => ?_
  exact .some ⟨h.update hxy.1, hxy.2⟩

theorem exchange_same {a b : ∀ p, Server (S p) Val} (h : SameServers tables isSSP a b) (kvId : ℕ)
    {c : Call Val} (hc : ∀ i, Server.Takes (isSSP (kvId, i)) c)
    {messages messages' : List (Option (Request Val))}
    (hm : List.Forall₂ (Slot (c.Recodes (tables kvId))) messages messages') :
    Option.Rel (Outcome (SameServers tables isSSP) Alike) (exchange tables kvId a messages)
      (exchange tables kvId b messages') := by
  refine run_lockstep (fun {s s' x y} hs hxy => ?_) (forall₂_zipIdx hm 0) h
  obtain ⟨hidx, hslot⟩ := hxy
  rw [hidx]
  exact deliver_same hs _ (Server.receive_slot (hs _) kvId (hc _) hslot)

omit [Add Val] in
theorem toWorker_same {out out' : List (Reply Val)} (h : List.Forall₂ Alike out out') :
    List.Forall₂ SameArrival (toWorker src out) (toWorker src out') := by
  have hfilter := forall₂_filter (p := fun r : Reply Val => decide (r.src = src))
    (q := fun r => decide (r.src = src)) (fun r r' hr => by rw [hr.1]) h
  exact List.rel_map (fun _ _ hr => hr.2) hfilter

/-- One event in two encodings. -/
theorem worldStep_same {a b : World S Val} (h : SameWorld tables isSSP a b) {e : Event Val}
    (he : ∀ kvId c f, e = .call kvId c f → ∀ i, Server.Takes (isSSP (kvId, i)) c) :
    Option.Rel (SameWorld tables isSSP) (worldStep tables src a e)
      (worldStep tables src b e.plain) := by
  cases e with
  | call kvId c f =>
      simp only [worldStep, Event.plain, h.worker]
      refine rel_bind (issue_plain tables src b.worker kvId c f) fun p q hpq => ?_
      obtain ⟨-, hworker, hmessages⟩ := hpq
      refine rel_bind (exchange_same h.servers kvId (he kvId c f rfl) hmessages) fun x y hxy => ?_
      exact .some ⟨hworker, hxy.1, List.rel_append h.inbox (toWorker_same src hxy.2)⟩
  | external p r =>
      have hdeliver : Option.Rel (Outcome (SameServers tables isSSP) Alike)
          (deliver tables a.servers p (some r)) (deliver tables b.servers p (some r)) :=
        deliver_same h.servers p (Server.handle_same (h.servers p) p.1 r)
      refine rel_bind hdeliver fun x y hxy => ?_
      exact .some ⟨h.worker, hxy.1, List.rel_append h.inbox (toWorker_same src hxy.2)⟩
  | arrive j =>
      simp only [worldStep, Event.plain, h.worker]
      refine rel_bind (forall₂_getElem? h.inbox j) fun x y hxy => ?_
      rw [hxy tables b.worker]
      refine rel_bind (rel_refl (R := Eq) (fun _ => rfl) _) fun p _ hp => ?_
      subst hp
      exact .some ⟨rfl, h.servers, forall₂_eraseIdx h.inbox j⟩

/-- **A run and the same run in the plain encoding**: they fail together, and otherwise the
worker and all stores are the same in the end. -/
theorem encodings_lockstep (w : World S Val) (events : List (Event Val))
    (hcalls : ∀ kvId c f, .call kvId c f ∈ events →
      ∀ i, Server.Takes (w.servers (kvId, i)).isSSP c) :
    Option.Rel (fun a b => a.worker = b.worker ∧ ∀ p, (a.servers p).store = (b.servers p).store)
      (events.foldlM (worldStep tables src) w)
      ((events.map Event.plain).foldlM (worldStep tables src) w) := by
  let isSSP : ℕ × ℕ → Bool := fun p => (w.servers p).isSSP
  have hinputs : List.Forall₂ (fun e e' => e' = e.plain ∧ e ∈ events) events
      (events.map Event.plain) := by
    rw [List.forall₂_map_right_iff, List.forall₂_same]
    exact fun e he => ⟨rfl, he⟩
  have hinit : SameWorld tables isSSP w w :=
    ⟨rfl, fun p => ⟨.refl _ _, rfl⟩, List.forall₂_same.mpr fun _ _ _ _ => rfl⟩
  have hstep : ∀ (a b : World S Val) (e e' : Event Val), SameWorld tables isSSP a b →
      (e' = e.plain ∧ e ∈ events) → Option.Rel (SameWorld tables isSSP) (worldStep tables src a e)
        (worldStep tables src b e') := by
    intro a b e e' hab he
    obtain ⟨rfl, hmem⟩ := he
    exact worldStep_same src hab fun kvId c f hcall => hcalls kvId c f (hcall ▸ hmem)
  refine rel_imp (foldlM_lockstep hstep hinputs hinit) fun a b hab => ?_
  exact ⟨hab.worker, fun p => (hab.servers p).1.store_eq⟩

end World

end FlexPS.KVStore
