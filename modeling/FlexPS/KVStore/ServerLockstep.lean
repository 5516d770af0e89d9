import FlexPS.KVStore.Encoding

/-!
# Servers in lockstep

A server that is sent a request in two encodings does the same: it fails on both or on
neither, its store is the same afterwards and the replies are alike.  An SSP server that is
sent an empty pull, while its copy is not, may have that pull parked and may know one worker
more; neither shows.

## Main definitions

* `SamePull` — two parked pulls that get the same answer.
* `SSPServer.Same` — two SSP servers that differ in empty pulls and encodings only.
* `DefaultUpdateServer.handle_recoded`, `SSPServer.handle_same`, `SSPServer.handle_recoded` —
  one request in two encodings.
-/

namespace FlexPS.KVStore

open Lib

variable {S Val : Type} [StorageT S Val]

/-! ## Bodies -/

theorem update_congr [Add Val] {t : RangeTable} {cmd cmd' : ℕ} {bin bin' : BinStream Val}
    (h : decodePush t cmd bin = decodePush t cmd' bin') (serverId : ℕ) (s : S)
    (isVector isAssign : Bool) :
    update t serverId bin s cmd isVector isAssign =
      update t serverId bin' s cmd' isVector isAssign := by
  simp only [update, h]

theorem retrieve_congr {t : RangeTable} {cmd cmd' : ℕ} {bin bin' : BinStream Val}
    (h : decodePull t cmd bin = decodePull t cmd' bin') (serverId : ℕ) (s : S) (isVector : Bool) :
    retrieve t serverId bin s cmd isVector = retrieve t serverId bin' s cmd' isVector := by
  simp only [retrieve, h]

/-- A push in two encodings. -/
theorem applyPush_recoded [Add Val] {t : RangeTable} {b b' : Blocked Val} (hts : b.ts = b'.ts)
    (hsrc : b.src = b'.src) (hbin : b.bin = [] ↔ b'.bin = [])
    (hdecode : b.bin ≠ [] → decodePush t b.cmd b.bin = decodePush t b'.cmd b'.bin)
    (kvId serverId : ℕ) (isVector isAssign : Bool) (s : S) :
    Option.Rel (Outcome Eq Alike) (applyPush t kvId serverId isVector isAssign s b)
      (applyPush t kvId serverId isVector isAssign s b') := by
  by_cases hempty : b.bin = []
  · simp only [applyPush, hempty, hbin.mp hempty, List.isEmpty_nil, if_true]
    exact .some ⟨rfl, .nil⟩
  · have hempty' : b'.bin ≠ [] := fun h => hempty (hbin.mpr h)
    simp only [applyPush, List.isEmpty_iff, hempty, hempty', if_false,
      update_congr (hdecode hempty) serverId s isVector isAssign]
    refine rel_bind (rel_refl (R := Eq) (fun _ => rfl) _) fun s₁ _ hs => ?_
    subst hs
    exact .some ⟨rfl, .cons (alike_push rfl hts hsrc rfl rfl) .nil⟩

/-- A pull in two encodings. -/
theorem answerPullAs_recoded {t : RangeTable} {b b' : Blocked Val} {cmd cmd' : ℕ} {clock : ℤ}
    (hbin : b.bin = [] ↔ b'.bin = [])
    (hdecode : b.bin ≠ [] → decodePull t cmd b.bin = decodePull t cmd' b'.bin) {kvId : ℕ}
    (halike : ∀ res : KVPairs Val, Alike
      { kvId, ts := b.ts, cmd := b.cmd, push := false, src := b.src, res, minClock := clock }
      { kvId, ts := b'.ts, cmd := b'.cmd, push := false, src := b'.src, res, minClock := clock })
    (serverId : ℕ) (isVector : Bool) (s : S) :
    Option.Rel (Outcome Eq Alike) (answerPullAs t kvId serverId isVector cmd clock s b)
      (answerPullAs t kvId serverId isVector cmd' clock s b') := by
  by_cases hempty : b.bin = []
  · simp only [answerPullAs, hempty, hbin.mp hempty, List.isEmpty_nil, if_true]
    exact .some ⟨rfl, .nil⟩
  · have hempty' : b'.bin ≠ [] := fun h => hempty (hbin.mpr h)
    simp only [answerPullAs, List.isEmpty_iff, hempty, hempty', if_false,
      retrieve_congr (hdecode hempty) serverId s isVector]
    refine rel_bind (rel_refl (R := Eq) (fun _ => rfl) _) fun p _ hp => ?_
    subst hp
    exact .some ⟨rfl, .cons (halike p.1) .nil⟩

/-! ## The default server -/

/-- **A default server does the same on every encoding of a request.** -/
theorem DefaultUpdateServer.handle_recoded [Add Val] {t : RangeTable} {r r' : Request Val}
    (h : Recoded t r r') (kvId : ℕ) (srv : DefaultUpdateServer S) :
    Option.Rel (Outcome Eq Alike) (srv.handle t kvId r) (srv.handle t kvId r') := by
  have hcmd := h.cmd
  have hcmd' := h.cmd'
  have hserve : Option.Rel (Outcome Eq Alike)
      (serveDirect t kvId srv.serverId srv.isVector srv.isAssign srv.store r)
      (serveDirect t kvId srv.serverId srv.isVector srv.isAssign srv.store r') := by
    unfold serveDirect
    rw [← h.push]
    split
    · next hpush => exact applyPush_recoded h.ts h.src h.bin (h.decodePush hpush) _ _ _ _ _
    · next hpush =>
        refine answerPullAs_recoded h.bin (h.decodePull (by simpa using hpush)) (fun res => ?_) _ _ _
        refine alike_of_decode rfl h.ts h.src ?_
        rw [decodeReply_pull rfl hcmd rfl, decodeReply_pull rfl hcmd' rfl]
  rw [handle, handle, if_neg (by omega), if_neg (by omega)]
  refine rel_bind hserve fun p q hpq => ?_
  obtain ⟨hstore, hout⟩ := hpq
  exact .some ⟨by rw [hstore], hout⟩

/-- A default server ignores an empty request. -/
theorem DefaultUpdateServer.handle_empty [Add Val] {t : RangeTable} {r : Request Val}
    (h : Recoded t r r) (hbin : r.bin = []) (kvId : ℕ) (srv : DefaultUpdateServer S) :
    srv.handle t kvId r = some (srv, []) := by
  have hcmd := h.cmd
  rw [handle, if_neg (by omega)]
  cases hpush : r.push <;>
    simp [serveDirect, hpush, applyPush, answerPull, answerPullAs, Request.entry, hbin]

/-! ## The SSP server -/

/-- Two pulls that get the same answer. -/
structure SamePull (t : RangeTable) (b b' : Blocked Val) : Prop where
  src : b.src = b'.src
  bin : b.bin = [] ↔ b'.bin = []
  decode : b.bin ≠ [] → decodePull t (bodyCmd b.cmd) b.bin = decodePull t (bodyCmd b'.cmd) b'.bin
  clock : ∀ m, sentClock b.cmd m = sentClock b'.cmd m
  alike : ∀ (kvId m : ℕ) (res : KVPairs Val), Alike
    { kvId, ts := b.ts, cmd := b.cmd, push := false, src := b.src, res
      minClock := sentClock b.cmd m }
    { kvId, ts := b'.ts, cmd := b'.cmd, push := false, src := b'.src, res
      minClock := sentClock b.cmd m }

theorem SamePull.refl (t : RangeTable) (b : Blocked Val) : SamePull t b b :=
  ⟨rfl, Iff.rfl, fun _ => rfl, fun _ => rfl, fun _ _ _ => .refl _⟩

/-- Two encodings of a pull with min clock get the same answer. -/
theorem RecodedClock.samePull {t : RangeTable} {r r' : Request Val} (h : RecodedClock t r r') :
    SamePull t r.entry r'.entry := by
  have hclock : ∀ {c : ℕ} (m : ℕ), c = 11 ∨ c = 13 → sentClock c m = m := by
    intro c m hc
    rw [sentClock, if_pos (by unfold withMinClockMagic; omega)]
  refine ⟨h.src, h.bin, h.decodePull, fun m => ?_, fun kvId m res => ?_⟩
  · rw [Request.entry, Request.entry, hclock m h.cmd, hclock m h.cmd']
  · refine alike_of_decode rfl h.ts h.src ?_
    have hne : sentClock r.cmd m ≠ -1 := by
      rw [hclock m h.cmd]
      omega
    rw [decodeReply_clock rfl h.cmd hne, decodeReply_clock rfl h.cmd' hne]

/-- A parked request with a body. -/
def Blocked.hasBody (b : Blocked Val) : Bool := !b.bin.isEmpty

/-- Of two pulls that get the same answer, both have a body or none. -/
theorem SamePull.filter {t : RangeTable} {b b' : Blocked Val} (h : SamePull t b b') :
    List.Forall₂ (SamePull t) ([b].filter Blocked.hasBody) ([b'].filter Blocked.hasBody) := by
  by_cases hempty : b.bin = []
  · simp [Blocked.hasBody, hempty, h.bin.mp hempty]
  · have hempty' : b'.bin ≠ [] := fun hnil => hempty (h.bin.mpr hnil)
    have hbody : b.hasBody = true := by simp [Blocked.hasBody, hempty]
    have hbody' : b'.hasBody = true := by simp [Blocked.hasBody, hempty']
    rw [List.filter_cons_of_pos hbody, List.filter_cons_of_pos hbody']
    exact .cons h .nil

namespace SSPServer

/-- Two SSP servers that differ only in parked pulls that are empty, in the encodings of
parked pulls, and in how many workers have a counter. -/
def Same (t : RangeTable) (a b : SSPServer S Val) : Prop :=
  ∃ workerProgress blockedPulls, b = { a with workerProgress, blockedPulls } ∧
    (∀ i, slot a.workerProgress i = slot workerProgress i) ∧
    ∀ c, List.Forall₂ (SamePull t) ((slot a.blockedPulls c).filter Blocked.hasBody)
      ((slot blockedPulls c).filter Blocked.hasBody)

omit [StorageT S Val] in
theorem Same.refl (t : RangeTable) (a : SSPServer S Val) : Same t a a :=
  ⟨_, _, rfl, fun _ => rfl, fun _ => List.forall₂_same.mpr fun b _ => .refl t b⟩

/-- Answering pulls does the same for pulls that get the same answer. -/
theorem answerPull_same {t : RangeTable} {b b' : Blocked Val} (h : SamePull t b b')
    (kvId serverId : ℕ) (isVector : Bool) (m : ℕ) {s s' : S} (hs : s = s') :
    Option.Rel (Outcome Eq Alike) (answerPull t kvId serverId isVector m s b)
      (answerPull t kvId serverId isVector m s' b') := by
  subst hs
  unfold answerPull
  rw [← h.clock m]
  exact answerPullAs_recoded h.bin h.decode (h.alike kvId m) serverId isVector s

theorem answerPull_empty {t : RangeTable} {kvId serverId : ℕ} {isVector : Bool} {m : ℕ} (s : S)
    (b : Blocked Val) (hbody : b.hasBody = false) :
    answerPull t kvId serverId isVector m s b = some (s, []) := by
  have hempty : b.bin = [] := by simpa [Blocked.hasBody] using hbody
  simp [answerPull, answerPullAs, hempty]

variable [Add Val]

theorem releaseClock_same {t : RangeTable} {a b : SSPServer S Val} (h : Same t a b) (kvId : ℕ) :
    Option.Rel (Outcome (Same t) Alike) (a.releaseClock t kvId) (b.releaseClock t kvId) := by
  obtain ⟨workerProgress, blockedPulls, rfl, hprogress, hpulls⟩ := h
  unfold releaseClock
  refine rel_bind (rel_refl (R := Eq) (fun _ => rfl) _) fun p _ hp => ?_
  subst hp
  obtain ⟨store, pushed⟩ := p
  have hpulled : Option.Rel (Outcome Eq Alike)
      (run (answerPull t kvId a.serverId a.isVector a.minClock) store
        (slot (grow a.blockedPulls (a.minClock + 1)) a.minClock))
      (run (answerPull t kvId a.serverId a.isVector a.minClock) store
        (slot (grow blockedPulls (a.minClock + 1)) a.minClock)) := by
    rw [slot_grow, slot_grow, run_filter (fun s b hb => answerPull_empty s b hb),
      run_filter (fun s b hb => answerPull_empty s b hb) store (slot blockedPulls a.minClock)]
    exact run_lockstep (fun hs hb => answerPull_same hb kvId a.serverId a.isVector a.minClock hs)
      (hpulls a.minClock) rfl
  refine rel_bind hpulled fun p q hpq => ?_
  obtain ⟨hstore, hout⟩ := hpq
  refine .some ⟨⟨_, _, by rw [hstore], hprogress, fun c => ?_⟩, ?_⟩
  · simp only [slot_clearAt, slot_grow]
    split
    · exact .nil
    · exact hpulls c
  · exact List.rel_append (List.forall₂_same.mpr fun r _ => .refl r) hout

theorem processPush_same {t : RangeTable} {a b : SSPServer S Val} (h : Same t a b) (kvId : ℕ)
    (e : Blocked Val) :
    Option.Rel (Outcome (Same t) Alike) (a.processPush t kvId e) (b.processPush t kvId e) := by
  obtain ⟨workerProgress, blockedPulls, rfl, hprogress, hpulls⟩ := h
  unfold processPush
  refine rel_bind (rel_refl (R := Eq) (fun _ => rfl) _) fun p _ hp => ?_
  subst hp
  refine rel_bind (rel_refl (R := Eq) (fun _ => rfl) _) fun count _ hcount => ?_
  subst hcount
  have hout : List.Forall₂ Alike p.2 p.2 := List.forall₂_same.mpr fun r _ => .refl r
  dsimp only
  split
  · refine rel_bind (R := Outcome (Same t) Alike) (releaseClock_same ?_ kvId) fun p' q' hpq => ?_
    · exact ⟨_, _, rfl, hprogress, hpulls⟩
    · exact .some (.append hout hpq)
  · exact .some ⟨⟨_, _, rfl, hprogress, hpulls⟩, hout⟩

theorem handlePush_same {t : RangeTable} {a b : SSPServer S Val} (h : Same t a b) (kvId : ℕ)
    (r : Request Val) :
    Option.Rel (Outcome (Same t) Alike) (a.handlePush t kvId r) (b.handlePush t kvId r) := by
  obtain ⟨workerProgress, blockedPulls, rfl, hprogress, hpulls⟩ := h
  have hnext : ∀ i, slot (modifyAt a.workerProgress r.src (· + 1)) i =
      slot (modifyAt workerProgress r.src (· + 1)) i := by
    intro i
    rw [slot_modifyAt, slot_modifyAt, hprogress, hprogress]
  simp only [handlePush, ← hprogress r.src]
  split
  · refine processPush_same ?_ kvId r.entry
    exact ⟨_, _, rfl, hnext, hpulls⟩
  · exact .some ⟨⟨_, _, rfl, hnext, hpulls⟩, .nil⟩

omit [Add Val] in
theorem handlePull_same {t : RangeTable} {a b : SSPServer S Val} (h : Same t a b) (kvId : ℕ)
    {r r' : Request Val} (hr : SamePull t r.entry r'.entry) :
    Option.Rel (Outcome (Same t) Alike) (a.handlePull t kvId r) (b.handlePull t kvId r') := by
  obtain ⟨workerProgress, blockedPulls, rfl, hprogress, hpulls⟩ := h
  have hsrc : r'.src = r.src := hr.src.symm
  have hnext : ∀ i, slot (grow a.workerProgress (r.src + 1)) i =
      slot (grow workerProgress (r.src + 1)) i := by
    intro i
    rw [slot_grow, slot_grow, hprogress]
  simp only [handlePull, hsrc, ← hnext r.src]
  split
  · refine rel_bind (answerPull_same hr kvId a.serverId a.isVector a.minClock rfl) fun p q hpq => ?_
    obtain ⟨hstore, hout⟩ := hpq
    exact .some ⟨⟨_, _, by rw [hstore], hnext, hpulls⟩, hout⟩
  · refine .some ⟨⟨_, _, rfl, hnext, fun c => ?_⟩, .nil⟩
    simp only [park, slot_modifyAt]
    split
    · next hc =>
        subst hc
        rw [List.filter_append, List.filter_append]
        exact List.rel_append (hpulls _) hr.filter
    · exact hpulls c

/-- **An SSP server and its copy do the same on one request**, of whatever kind. -/
theorem handle_same {t : RangeTable} {a b : SSPServer S Val} (h : Same t a b) (kvId : ℕ)
    (r : Request Val) :
    Option.Rel (Outcome (Same t) Alike) (a.handle t kvId r) (b.handle t kvId r) := by
  unfold handle
  split
  · obtain ⟨workerProgress, blockedPulls, rfl, hprogress, hpulls⟩ := h
    unfold handleInit
    dsimp only
    split
    · refine rel_bind (rel_refl (R := Eq) (fun _ => rfl) _) fun p _ hp => ?_
      subst hp
      exact .some ⟨.refl t _, .cons (.refl _) .nil⟩
    · exact .some ⟨⟨_, _, rfl, hprogress, hpulls⟩, .cons (.refl _) .nil⟩
  · split
    · obtain ⟨workerProgress, blockedPulls, rfl, hprogress, hpulls⟩ := h
      refine rel_bind (rel_refl (R := Eq) (fun _ => rfl) _) fun p _ hp => ?_
      subst hp
      exact .some ⟨⟨_, _, rfl, hprogress, hpulls⟩, List.forall₂_same.mpr fun r _ => .refl r⟩
    · split
      · exact handlePush_same h kvId r
      · exact handlePull_same h kvId (.refl t _)

theorem handle_clock {t : RangeTable} {r : Request Val} (hcmd : r.cmd = 11 ∨ r.cmd = 13)
    (hpush : r.push = false) (kvId : ℕ) (a : SSPServer S Val) :
    a.handle t kvId r = a.handlePull t kvId r := by
  rw [handle, if_neg (by omega), if_neg (by unfold consistencyControlOffMagic; omega), hpush]
  rfl

/-- **An SSP server does the same on every encoding of a pull with min clock.** -/
theorem handle_recoded {t : RangeTable} {a b : SSPServer S Val} (h : Same t a b) (kvId : ℕ)
    {r r' : Request Val} (hr : RecodedClock t r r') :
    Option.Rel (Outcome (Same t) Alike) (a.handle t kvId r) (b.handle t kvId r') := by
  rw [handle_clock hr.cmd hr.push, handle_clock hr.cmd' hr.push']
  exact handlePull_same h kvId hr.samePull

/-- An empty pull with min clock does not show, whether it is answered or parked. -/
theorem handle_empty {t : RangeTable} {a b : SSPServer S Val} (h : Same t a b) (kvId : ℕ)
    {r : Request Val} (hr : RecodedClock t r r) (hbin : r.bin = []) :
    Option.Rel (Outcome (Same t) Alike) (some (a, [])) (b.handle t kvId r) := by
  obtain ⟨workerProgress, blockedPulls, rfl, hprogress, hpulls⟩ := h
  have hbody : r.entry.hasBody = false := by simp [Blocked.hasBody, Request.entry, hbin]
  have hnext : ∀ i, slot a.workerProgress i = slot (grow workerProgress (r.src + 1)) i := by
    intro i
    rw [slot_grow, hprogress]
  rw [handle_clock hr.cmd hr.push, handlePull]
  simp only [answerPull_empty _ _ hbody, Option.bind_eq_bind, Option.bind_some]
  split
  · exact .some ⟨⟨_, _, rfl, hnext, hpulls⟩, .nil⟩
  · refine .some ⟨⟨_, _, rfl, hnext, fun c => ?_⟩, .nil⟩
    simp only [park, slot_modifyAt]
    split
    · next hc =>
        subst hc
        rw [List.filter_append, List.filter_cons_of_neg (by simp [hbody]), List.filter_nil,
          List.append_nil]
        exact hpulls _
    · exact hpulls c

end SSPServer

end FlexPS.KVStore
