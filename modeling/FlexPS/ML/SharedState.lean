import FlexPS.Lib.Machine
import Mathlib.Algebra.Order.BigOperators.Group.Finset
import Mathlib.Data.List.Nodup
import Mathlib.Data.List.Perm.Subperm
import Mathlib.Logic.Function.Basic

/-!
# Shared state

The threads of an instance on one process share a state.  One of them is the leader, whose socket
receives a message from each of the others and answers all of them when it has received all; that is
how the others get the pointer to the state, and how all of them wait for each other.

## Main definitions

* `SharedOp`, `Meeting`, `schedule` — what the leader does, and when the threads meet.
* `Group`, `Group.step` — the threads, their sockets, and the steps of sending and receiving.
* `Group.Inv`, `Group.inv_of_run` — where every thread is.
* `Group.Synced` — the threads wait for each other and see what the leader has shared.
* `shared_state_synced`, `shared_state_finishes` — the statements for every run.
* `spmt_uses_in_time` — when the threads of an `SPMTWorker` use the shared model.
-/

namespace FlexPS.ML

open Lib

/-- What the threads do together: `SyncState` and `Barrier`. -/
inductive Meeting where
  | syncState
  | barrier
  deriving DecidableEq, Repr

/-- What the leader does: `Init`, and what the threads do together. -/
inductive SharedOp (P : Type) where
  | init (shared : P)
  | meet (m : Meeting)

/-- The meetings, with the pointer that the leader has then. -/
def schedule {P : Type} : Option P → List (SharedOp P) → List (Meeting × Option P)
  | _, [] => []
  | _, .init shared :: ops => schedule (some shared) ops
  | shared, .meet m :: ops => (m, shared) :: schedule shared ops

/-- What the leader answers: the pointer, or nothing. -/
def answer {P : Type} (x : Meeting × Option P) : Option P :=
  match x.1 with
  | .syncState => x.2
  | .barrier => none

/-- What `Get` returns after the meetings on a thread that is not the leader. -/
def seen {P : Type} (xs : List (Meeting × Option P)) : Option P :=
  xs.foldl (fun shared x => match x.1 with
    | .syncState => x.2
    | .barrier => shared) none

/-- Where the leader is in a meeting: it collects the identities of the others, and then answers
them. -/
inductive LeaderPhase where
  | away
  | collecting (identityStore : List ℕ)
  | answering (identities : List ℕ)

/-- A thread that is not the leader; `met` is the number of meetings it has returned from. -/
structure Follower (P : Type) where
  shared : Option P
  met : ℕ
  waiting : Bool

/-- How many meetings the thread has come to. -/
def Follower.come {P : Type} (f : Follower P) : ℕ := f.met + if f.waiting then 1 else 0

/-- The threads, with the operations that the leader has not finished, and the messages on the way to
the leader and from it, for each of the others. -/
structure Group (P : Type) where
  shared : Option P
  ops : List (SharedOp P)
  phase : LeaderPhase
  followers : ℕ → Follower P
  requests : ℕ → List Meeting
  replies : ℕ → List (Option P)

/-- A step of one of the threads. -/
inductive GroupStep where
  | start
  | collect (i : ℕ)
  | collected
  | reply
  | finish
  | send (i : ℕ)
  | receive (i : ℕ)
  deriving DecidableEq, Repr

namespace Group

variable {P : Type} (numThreads : ℕ) (program : List (SharedOp P))

/-- Nobody has done anything. -/
def start : Group P := ⟨none, program, .away, fun _ => ⟨none, 0, false⟩, fun _ => [], fun _ => []⟩

/-- The leader begins with its next operation; `none` when it has nothing to share. -/
def begin (g : Group P) : Option (Group P) :=
  match g.phase, g.ops with
  | .away, .init shared :: ops => some { g with shared := some shared, ops := ops }
  | .away, .meet .syncState :: _ =>
      if g.shared.isSome then some { g with phase := .collecting [] } else none
  | .away, .meet .barrier :: _ => some { g with phase := .collecting [] }
  | _, _ => none

/-- The leader receives a message; `none` for one of the wrong kind. -/
def collect (i : ℕ) (g : Group P) : Option (Group P) :=
  match g.phase, g.ops, g.requests i with
  | .collecting store, .meet m :: _, m' :: requests =>
      if store.length < numThreads - 1 ∧ m' = m then
        some { g with
          phase := .collecting (store ++ [i])
          requests := Function.update g.requests i requests }
      else none
  | _, _, _ => none

/-- The leader has received as many messages as there are other threads. -/
def collected (g : Group P) : Option (Group P) :=
  match g.phase with
  | .collecting store =>
      if store.length < numThreads - 1 then none else some { g with phase := .answering store }
  | _ => none

/-- The leader answers the next identity in the store. -/
def reply (g : Group P) : Option (Group P) :=
  match g.phase, g.ops with
  | .answering (i :: ids), .meet m :: _ =>
      some { g with
        phase := .answering ids
        replies := Function.update g.replies i (g.replies i ++ [answer (m, g.shared)]) }
  | _, _ => none

/-- The leader returns from a meeting. -/
def finish (g : Group P) : Option (Group P) :=
  match g.phase, g.ops with
  | .answering [], _ :: ops => some { g with phase := .away, ops := ops }
  | _, _ => none

/-- A thread that is not the leader comes to its next meeting; their ids are those below
`num_threads_ - 1`. -/
def send (i : ℕ) (g : Group P) : Option (Group P) :=
  match (schedule none program)[(g.followers i).met]? with
  | some x =>
      if i < numThreads - 1 ∧ (g.followers i).waiting = false then
        some { g with
          followers := Function.update g.followers i { g.followers i with waiting := true }
          requests := Function.update g.requests i (g.requests i ++ [x.1]) }
      else none
  | none => none

/-- What a thread makes of an answer; `none` for one of the wrong kind. -/
def Follower.take (f : Follower P) : Meeting → Option P → Option (Follower P)
  | .syncState, some shared => some ⟨some shared, f.met + 1, false⟩
  | .barrier, none => some ⟨f.shared, f.met + 1, false⟩
  | _, _ => none

/-- A thread receives the answer that it waits for. -/
def receive (i : ℕ) (g : Group P) : Option (Group P) :=
  match (schedule none program)[(g.followers i).met]?, g.replies i with
  | some x, reply :: replies =>
      if (g.followers i).waiting then
        (Follower.take (g.followers i) x.1 reply).map fun f =>
          { g with
            followers := Function.update g.followers i f
            replies := Function.update g.replies i replies }
      else none
  | _, _ => none

/-- A step. -/
def step (g : Group P) (s : GroupStep) : Option (Group P × List Unit) :=
  (match s with
    | .start => g.begin
    | .collect i => g.collect numThreads i
    | .collected => g.collected numThreads
    | .reply => g.reply
    | .finish => g.finish
    | .send i => g.send numThreads program i
    | .receive i => g.receive program i).map (·, [])

/-! ## Where every thread is -/

/-- How often the leader has answered a thread, when it has finished `k` meetings. -/
def answered (k i : ℕ) : LeaderPhase → ℕ
  | .answering ids => if i ∈ ids then k else k + 1
  | _ => k

/-- The leader has received the message of the thread, and has not answered it. -/
def holds (i : ℕ) : LeaderPhase → Bool
  | .away => false
  | .collecting store => i ∈ store
  | .answering ids => i ∈ ids

/-- A thread that the leader has answered `c` times, with the messages to and from the leader: it has
not sent anything since, or has sent a message, which the leader may hold, or has not received the
last answer. -/
inductive FollowerAt (f : Follower P) : List Meeting → List (Option P) → ℕ → Bool → Prop
  | away (c : ℕ) (hwaiting : f.waiting = false) (hmet : f.met = c) : FollowerAt f [] [] c false
  | sent (c : ℕ) (x : Meeting × Option P) (hwaiting : f.waiting = true) (hmet : f.met = c)
      (hx : (schedule none program)[f.met]? = some x) : FollowerAt f [x.1] [] c false
  | held (c : ℕ) (x : Meeting × Option P) (hwaiting : f.waiting = true) (hmet : f.met = c)
      (hx : (schedule none program)[f.met]? = some x) : FollowerAt f [] [] c true
  | told (c : ℕ) (x : Meeting × Option P) (hwaiting : f.waiting = true) (hmet : f.met + 1 = c)
      (hx : (schedule none program)[f.met]? = some x)
      (hshared : x.1 = .syncState → x.2.isSome) : FollowerAt f [] [answer x] c false

/-- The leader is in a meeting with these threads, and has something to share if it has to. -/
structure Meets (shared : Option P) (ops : List (SharedOp P)) (ids : List ℕ) : Prop where
  op : ∃ m rest, ops = .meet m :: rest ∧ (m = .syncState → shared.isSome)
  nodup : ids.Nodup
  lt : ∀ i ∈ ids, i < numThreads - 1

/-- After the meetings of `past`, the leader is where its operations say, every other thread is where
the leader says, and has seen what has been shared. -/
structure Inv (past : List (Meeting × Option P)) (g : Group P) : Prop where
  split : schedule none program = past ++ schedule g.shared g.ops
  collecting : ∀ store, g.phase = .collecting store → Meets numThreads g.shared g.ops store
  answering : ∀ ids, g.phase = .answering ids → Meets numThreads g.shared g.ops ids
  place : ∀ i < numThreads - 1, FollowerAt program (g.followers i) (g.requests i) (g.replies i)
    (answered past.length i g.phase) (holds i g.phase)
  shared : ∀ i < numThreads - 1,
    (g.followers i).shared = seen ((schedule none program).take (g.followers i).met)
  nobody : ∀ i, numThreads - 1 ≤ i → g.requests i = [] ∧ g.replies i = []

variable {numThreads program} {past : List (Meeting × Option P)} {g g' : Group P} {o : List Unit}
  {i j : ℕ} {f : Follower P} {requests : List Meeting} {replies : List (Option P)} {c : ℕ}
  {held : Bool} {m : Meeting} {ids : List ℕ}

theorem inv_start (numThreads : ℕ) (program : List (SharedOp P)) :
    Inv numThreads program [] (start program) where
  split := rfl
  collecting _ heq := by cases heq
  answering _ heq := by cases heq
  place _ _ := .away 0 rfl rfl
  shared _ _ := rfl
  nobody _ _ := ⟨rfl, rfl⟩

theorem FollowerAt.met_le (h : FollowerAt program f requests replies c held) : f.met ≤ c := by
  cases h with
  | away _ _ hmet => exact hmet.le
  | sent _ x _ hmet _ => exact hmet.le
  | held _ x _ hmet _ => exact hmet.le
  | told _ x _ hmet _ _ => omega

theorem FollowerAt.le_come (h : FollowerAt program f requests replies c held) :
    c + (if held then 1 else 0) ≤ f.come := by
  unfold Follower.come
  cases h with
  | away _ hwaiting hmet => simp [hwaiting, hmet]
  | sent _ x hwaiting hmet _ => simp [hwaiting, hmet]
  | held _ x hwaiting hmet _ => simp [hwaiting, hmet]
  | told _ x hwaiting hmet _ _ => simp [hwaiting, hmet]

/-- The message of the thread has not been received. -/
theorem FollowerAt.of_requests (h : FollowerAt program f (m :: requests) replies c held) :
    held = false ∧ FollowerAt program f requests replies c true ∧
      ∃ x, (schedule none program)[f.met]? = some x ∧ x.1 = m := by
  cases h with
  | sent _ x hwaiting hmet hx => exact ⟨rfl, .held _ x hwaiting hmet hx, x, hx, rfl⟩

/-- The message of the thread is for its next meeting after those it has been answered. -/
theorem FollowerAt.sent_of_requests
    (h : FollowerAt program f (m :: requests) replies c held) :
    requests = [] ∧ f.met = c ∧ ∃ x, (schedule none program)[f.met]? = some x ∧ x.1 = m := by
  cases h with
  | sent _ x _ hmet hx => exact ⟨rfl, hmet, x, hx, rfl⟩

/-- The leader answers the thread. -/
theorem FollowerAt.of_held (h : FollowerAt program f requests replies c true)
    {x : Meeting × Option P} (hx : (schedule none program)[c]? = some x)
    (hshared : x.1 = .syncState → x.2.isSome) :
    FollowerAt program f requests (replies ++ [answer x]) (c + 1) false := by
  cases h with
  | held _ y hwaiting hmet _ => exact .told _ x hwaiting (hmet ▸ rfl) (hmet ▸ hx) hshared

/-- The thread has an answer. -/
theorem FollowerAt.of_replies {reply : Option P}
    (h : FollowerAt program f requests (reply :: replies) c held) :
    held = false ∧ requests = [] ∧ replies = [] ∧ f.waiting = true ∧ f.met + 1 = c ∧
      ∃ x, (schedule none program)[f.met]? = some x ∧ reply = answer x ∧
        (x.1 = .syncState → x.2.isSome) := by
  cases h with
  | told _ x hwaiting hmet hx hshared => exact ⟨rfl, rfl, rfl, hwaiting, hmet, x, hx, rfl, hshared⟩

/-- The thread is not in a meeting. -/
theorem FollowerAt.of_not_waiting (h : FollowerAt program f requests replies c held)
    (hwaiting : f.waiting = false) : requests = [] ∧ replies = [] ∧ f.met = c ∧ held = false := by
  cases h with
  | away _ _ hmet => exact ⟨rfl, rfl, hmet, rfl⟩
  | sent _ _ hw _ _ => cases hwaiting.symm.trans hw
  | held _ _ hw _ _ => cases hwaiting.symm.trans hw
  | told _ _ hw _ _ _ => cases hwaiting.symm.trans hw

/-- What is seen after one more meeting. -/
theorem seen_snoc (xs : List (Meeting × Option P)) (x : Meeting × Option P) :
    seen (xs ++ [x]) = match x.1 with
      | .syncState => x.2
      | .barrier => seen xs := by
  rw [seen, List.foldl_append]
  rfl

/-- The meeting that the leader is in. -/
theorem Inv.meeting (h : Inv numThreads program past g) {ops : List (SharedOp P)}
    (hops : g.ops = .meet m :: ops) : (schedule none program)[past.length]? = some (m, g.shared) := by
  rw [h.split, hops, List.getElem?_append_right le_rfl, Nat.sub_self]
  rfl

/-- As many different threads as there are. -/
theorem Meets.all (h : Meets numThreads g.shared g.ops ids) (hlength : numThreads - 1 ≤ ids.length)
    (hi : i < numThreads - 1) : i ∈ ids := by
  have hsub : ids ⊆ List.range (numThreads - 1) := fun j hj => List.mem_range.mpr (h.lt j hj)
  have hperm : ids.Perm (List.range (numThreads - 1)) :=
    (List.subperm_of_subset h.nodup hsub).perm_of_length_le (by rwa [List.length_range])
  exact hperm.mem_iff.mpr (List.mem_range.mpr hi)

/-! ## The steps of the leader -/

/-- **The leader begins** with its next operation. -/
theorem Inv.begin (h : Inv numThreads program past g)
    (hstep : g.begin = some g') : Inv numThreads program past g' := by
  have hmeets : ∀ {m ops}, g.phase = .away → g.ops = .meet m :: ops →
      (m = .syncState → g.shared.isSome) →
      Inv numThreads program past { g with phase := .collecting [] } := by
    intro m ops hphase hops hshared
    refine ⟨h.split, ?_, fun _ heq => (by cases heq), fun i hi => ?_, h.shared, h.nobody⟩
    · rintro _ ⟨⟩
      exact ⟨⟨m, ops, hops, hshared⟩, List.nodup_nil, fun _ hmem => absurd hmem List.not_mem_nil⟩
    · have hplace := h.place i hi
      rw [hphase] at hplace
      exact hplace
  unfold Group.begin at hstep
  split at hstep
  · next shared ops hphase hops =>
      obtain rfl := Option.some.inj hstep
      refine ⟨?_, fun _ heq => ?_, fun _ heq => ?_, h.place, h.shared, h.nobody⟩
      · rw [h.split, hops]
        rfl
      · cases hphase.symm.trans heq
      · cases hphase.symm.trans heq
  · next hphase hops =>
      split at hstep
      · next hshared =>
          obtain rfl := Option.some.inj hstep
          exact hmeets hphase hops fun _ => hshared
      · cases hstep
  · next hphase hops =>
      obtain rfl := Option.some.inj hstep
      exact hmeets hphase hops nofun
  · cases hstep

/-- **The leader receives** the message of a thread. -/
theorem Inv.collect (h : Inv numThreads program past g)
    (hstep : g.collect numThreads i = some g') :
    Inv numThreads program past g' := by
  unfold Group.collect at hstep
  split at hstep
  · next store m ops m' requests hphase hops hrequests =>
      split at hstep
      · next hcond =>
          obtain rfl := Option.some.inj hstep
          have hmeets := h.collecting store hphase
          have hi : i < numThreads - 1 := by
            by_contra hge
            cases hrequests.symm.trans (h.nobody i (not_lt.mp hge)).1
          -- a thread whose message the leader holds has not sent another one
          have hplace : i ∉ store ∧ FollowerAt program (g.followers i) requests (g.replies i)
              past.length true := by
            have hplace := h.place i hi
            rw [hrequests, hphase] at hplace
            obtain ⟨hheld, hplace, -⟩ := hplace.of_requests
            exact ⟨of_decide_eq_false hheld, hplace⟩
          refine ⟨h.split, ?_, fun _ heq => (by cases heq), fun j hj => ?_, h.shared, fun j hj => ?_⟩
          · rintro _ ⟨⟩
            refine ⟨hmeets.op, ?_, ?_⟩
            · exact List.nodup_append.mpr ⟨hmeets.nodup, List.nodup_singleton i, by
                rintro _ hmem _ hi' rfl
                obtain rfl := List.mem_singleton.mp hi'
                exact hplace.1 hmem⟩
            · exact List.forall_mem_append.mpr ⟨hmeets.lt, List.forall_mem_singleton.mpr hi⟩
          · by_cases hji : j = i
            · subst hji
              have hmem : decide (j ∈ store ++ [j]) = true :=
                decide_eq_true (List.mem_append_right _ (List.mem_singleton_self j))
              simp only [answered, holds, Function.update_self, hmem]
              exact hplace.2
            · have hsame : decide (j ∈ store ++ [i]) = decide (j ∈ store) := by simp [hji]
              have hother := h.place j hj
              rw [hphase] at hother
              simp only [answered, holds, hsame, Function.update_of_ne hji]
              exact hother
          · have hne : j ≠ i := by omega
            exact ⟨(Function.update_of_ne hne _ _).trans (h.nobody j hj).1, (h.nobody j hj).2⟩
      · cases hstep
  · cases hstep

/-- The leader has received the messages of all threads. -/
theorem Inv.collected (h : Inv numThreads program past g)
    (hstep : g.collected numThreads = some g') :
    Inv numThreads program past g' := by
  unfold Group.collected at hstep
  split at hstep
  · next store hphase =>
      split at hstep
      · cases hstep
      · next hlength =>
          obtain rfl := Option.some.inj hstep
          have hmeets := h.collecting store hphase
          refine ⟨h.split, fun _ heq => (by cases heq), ?_, fun i hi => ?_, h.shared, h.nobody⟩
          · rintro _ ⟨⟩
            exact ⟨hmeets.op, hmeets.nodup, hmeets.lt⟩
          · have hplace := h.place i hi
            rw [hphase] at hplace
            simp only [answered, if_pos (hmeets.all (not_lt.mp hlength) hi)]
            exact hplace
  · cases hstep

/-- **The leader answers** a thread. -/
theorem Inv.reply (h : Inv numThreads program past g)
    (hstep : g.reply = some g') : Inv numThreads program past g' := by
  unfold Group.reply at hstep
  split at hstep
  · next i ids m ops hphase hops =>
      obtain rfl := Option.some.inj hstep
      have hmeets := h.answering _ hphase
      obtain ⟨hnot, hnodup⟩ := List.nodup_cons.mp hmeets.nodup
      obtain ⟨hi, hlt⟩ := List.forall_mem_cons.mp hmeets.lt
      refine ⟨h.split, fun _ heq => (by cases heq), ?_, fun j hj => ?_, h.shared, fun j hj => ?_⟩
      · rintro _ ⟨⟩
        exact ⟨hmeets.op, hnodup, hlt⟩
      · have hplace := h.place j hj
        rw [hphase] at hplace
        by_cases hji : j = i
        · subst hji
          obtain ⟨m', ops', hops', hshared⟩ := hmeets.op
          obtain rfl : m = m' := SharedOp.meet.inj (List.cons.inj (hops.symm.trans hops')).1
          simp only [answered, holds, if_pos (List.mem_cons_self ..), if_neg hnot,
            decide_eq_true (List.mem_cons_self .. : j ∈ j :: ids), decide_eq_false hnot,
            Function.update_self] at hplace ⊢
          exact hplace.of_held (h.meeting hops) hshared
        · have hsame : j ∈ i :: ids ↔ j ∈ ids := List.mem_cons.trans (or_iff_right hji)
          simp only [answered, holds, hsame, Function.update_of_ne hji] at hplace ⊢
          exact hplace
      · have hne : j ≠ i := by omega
        exact ⟨(h.nobody j hj).1, (Function.update_of_ne hne _ _).trans (h.nobody j hj).2⟩
  · cases hstep

/-- **The leader returns** from a meeting. -/
theorem Inv.finish (h : Inv numThreads program past g) (hstep : g.finish = some g') :
    ∃ x, Inv numThreads program (past ++ [x]) g' := by
  unfold Group.finish at hstep
  split at hstep
  · next op ops hphase hops =>
      obtain rfl := Option.some.inj hstep
      obtain ⟨m, ops', hops', -⟩ := (h.answering _ hphase).op
      obtain ⟨rfl, rfl⟩ := List.cons.inj (hops.symm.trans hops')
      refine ⟨(m, g.shared), ?_, fun _ heq => (by cases heq), fun _ heq => (by cases heq),
        fun i hi => ?_, h.shared, h.nobody⟩
      · rw [h.split, hops, List.append_assoc]
        rfl
      · have hplace := h.place i hi
        rw [hphase] at hplace
        simp only [answered, holds, List.not_mem_nil, if_false, decide_false, List.length_append,
          List.length_singleton] at hplace ⊢
        exact hplace
  · cases hstep

/-! ## The steps of the others -/

/-- **A thread comes** to its next meeting. -/
theorem Inv.send (h : Inv numThreads program past g)
    (hstep : g.send numThreads program i = some g') : Inv numThreads program past g' := by
  unfold Group.send at hstep
  split at hstep
  · next x hx =>
      split at hstep
      · next hcond =>
          obtain rfl := Option.some.inj hstep
          refine ⟨h.split, h.collecting, h.answering, fun j hj => ?_, fun j hj => ?_,
            fun j hj => ?_⟩
          · by_cases hji : j = i
            · subst hji
              have hplace := h.place j hj
              obtain ⟨hrequests, hreplies, hmet, hheld⟩ := hplace.of_not_waiting hcond.2
              simp only [Function.update_self, hrequests, hreplies, hheld]
              exact .sent _ x rfl hmet hx
            · simp only [Function.update_of_ne hji]
              exact h.place j hj
          · by_cases hji : j = i
            · subst hji
              simp only [Function.update_self]
              exact h.shared j hj
            · simp only [Function.update_of_ne hji]
              exact h.shared j hj
          · have hne : j ≠ i := by omega
            exact ⟨(Function.update_of_ne hne _ _).trans (h.nobody j hj).1, (h.nobody j hj).2⟩
      · cases hstep
  · cases hstep

/-- What a thread has seen after a meeting. -/
theorem take_spec {x : Meeting × Option P} (hx : (schedule none program)[f.met]? = some x)
    (hshared : f.shared = seen ((schedule none program).take f.met)) {f' : Follower P}
    (htake : Follower.take f x.1 (answer x) = some f') :
    f'.met = f.met + 1 ∧ f'.waiting = false ∧
      f'.shared = seen ((schedule none program).take (f.met + 1)) := by
  have hnext : (schedule none program).take (f.met + 1) =
      (schedule none program).take f.met ++ [x] := by
    rw [List.take_add_one, hx]
    rfl
  rw [hnext, seen_snoc]
  obtain ⟨m, shared⟩ := x
  cases m with
  | syncState =>
      cases shared with
      | none => cases htake
      | some shared =>
          obtain rfl := Option.some.inj htake
          exact ⟨rfl, rfl, rfl⟩
  | barrier =>
      obtain rfl := Option.some.inj htake
      exact ⟨rfl, rfl, hshared⟩

/-- **A thread returns** from a meeting. -/
theorem Inv.receive (h : Inv numThreads program past g)
    (hstep : g.receive program i = some g') : Inv numThreads program past g' := by
  unfold Group.receive at hstep
  split at hstep
  · next x reply replies hx hreplies =>
      split at hstep
      · obtain ⟨f, htake, rfl⟩ := Option.map_eq_some_iff.mp hstep
        have hi : i < numThreads - 1 := by
          by_contra hge
          cases hreplies.symm.trans (h.nobody i (not_lt.mp hge)).2
        have hplace := h.place i hi
        rw [hreplies] at hplace
        obtain ⟨hheld, hrequests, rfl, -, hmet, y, hy, rfl, -⟩ := hplace.of_replies
        obtain rfl := Option.some.inj (hx.symm.trans hy)
        obtain ⟨hmet', hwaiting, hshared⟩ := take_spec hx (h.shared i hi) htake
        refine ⟨h.split, h.collecting, h.answering, fun j hj => ?_, fun j hj => ?_, fun j hj => ?_⟩
        · by_cases hji : j = i
          · subst hji
            simp only [Function.update_self, hrequests, hheld]
            exact .away _ hwaiting (hmet'.trans hmet)
          · simp only [Function.update_of_ne hji]
            exact h.place j hj
        · by_cases hji : j = i
          · subst hji
            simp only [Function.update_self]
            rw [hshared, hmet']
          · simp only [Function.update_of_ne hji]
            exact h.shared j hj
        · have hne : j ≠ i := by omega
          exact ⟨(h.nobody j hj).1, (Function.update_of_ne hne _ _).trans (h.nobody j hj).2⟩
      · cases hstep
  · cases hstep

/-- **Every step** keeps the threads together. -/
theorem Inv.step {s : GroupStep} (h : Inv numThreads program past g)
    (hstep : Group.step numThreads program g s = some (g', o)) :
    ∃ past', Inv numThreads program past' g' := by
  obtain ⟨g₁, hmove, heq⟩ := Option.map_eq_some_iff.mp hstep
  obtain ⟨rfl, -⟩ := Prod.mk.inj heq
  cases s with
  | start => exact ⟨past, h.begin hmove⟩
  | collect i => exact ⟨past, h.collect hmove⟩
  | collected => exact ⟨past, h.collected hmove⟩
  | reply => exact ⟨past, h.reply hmove⟩
  | finish => exact (h.finish hmove).imp' (past ++ [·]) fun _ h => h
  | send i => exact ⟨past, h.send hmove⟩
  | receive i => exact ⟨past, h.receive hmove⟩

/-- **Every run** does. -/
theorem inv_of_run {steps : List GroupStep} {out : List Unit}
    (hrun : run (Group.step numThreads program) (start program) steps = some (g, out)) :
    ∃ past, Inv numThreads program past g :=
  (run_invariant (I := fun g => ∃ past, Inv numThreads program past g) (Q := fun _ _ => True)
    (fun ⟨_, h⟩ hstep => ⟨h.step hstep, fun _ _ => trivial⟩) ⟨[], inv_start numThreads program⟩ hrun).1

/-! ## The threads wait for each other -/

/-- How many meetings the leader has returned from. -/
def leaderMet (program : List (SharedOp P)) (g : Group P) : ℕ :=
  (schedule none program).length - (schedule g.shared g.ops).length

/-- How many meetings the leader has come to. -/
def leaderCome (program : List (SharedOp P)) (g : Group P) : ℕ :=
  leaderMet program g + match g.phase with
    | .away => 0
    | _ => 1

/-- **The threads wait for each other**: nobody has returned from a meeting that somebody has not come
to; the others have seen what the leader shared at the last `SyncState` that they returned from; and
what the leader or a thread can receive belongs to the meeting that it is in. -/
structure Synced (numThreads : ℕ) (program : List (SharedOp P)) (g : Group P) : Prop where
  others : ∀ i < numThreads - 1, ∀ j < numThreads - 1, (g.followers i).met ≤ (g.followers j).come
  leader_waits : ∀ i < numThreads - 1, leaderMet program g ≤ (g.followers i).come
  leader_comes : ∀ i < numThreads - 1, (g.followers i).met ≤ leaderCome program g
  shared : ∀ i < numThreads - 1,
    (g.followers i).shared = seen ((schedule none program).take (g.followers i).met)
  /-- A message to the leader while it collects. -/
  requests : ∀ i < numThreads - 1, ∀ store, g.phase = .collecting store → ∀ m rest,
    g.requests i = m :: rest → rest = [] ∧ (g.followers i).met = leaderMet program g ∧
      ∃ ops, g.ops = .meet m :: ops
  /-- An answer to a thread. -/
  replies : ∀ i < numThreads - 1, ∀ reply rest, g.replies i = reply :: rest → rest = [] ∧
    ∃ x, (schedule none program)[(g.followers i).met]? = some x ∧ reply = answer x ∧
      (Follower.take (g.followers i) x.1 reply).isSome

/-- A thread takes the answer to its meeting. -/
theorem take_answer (f : Follower P) {x : Meeting × Option P}
    (hshared : x.1 = .syncState → x.2.isSome) : (Follower.take f x.1 (answer x)).isSome := by
  obtain ⟨m, shared⟩ := x
  cases m with
  | barrier => rfl
  | syncState =>
      obtain ⟨p, rfl⟩ := Option.isSome_iff_exists.mp (hshared rfl)
      rfl

theorem Inv.leaderMet_eq (h : Inv numThreads program past g) : leaderMet program g = past.length := by
  rw [leaderMet, h.split, List.length_append, Nat.add_sub_cancel]

/-- A thread has been answered as often as the leader has returned, or once more in a meeting. -/
theorem answered_le (k i : ℕ) (phase : LeaderPhase) :
    k ≤ answered k i phase ∧ answered k i phase ≤ k + match phase with
      | .away => 0
      | _ => 1 := by
  cases phase with
  | away => exact ⟨le_rfl, le_rfl⟩
  | collecting store => exact ⟨le_rfl, Nat.le_succ k⟩
  | answering ids =>
      simp only [answered]
      split
      · exact ⟨le_rfl, Nat.le_succ k⟩
      · exact ⟨Nat.le_succ k, le_rfl⟩

/-- When a thread has been answered, the messages of all have been received. -/
theorem answered_le_held (k i j : ℕ) (phase : LeaderPhase) :
    answered k i phase ≤ answered k j phase + if holds j phase then 1 else 0 := by
  cases phase with
  | away => exact Nat.le_add_right k _
  | collecting store => exact Nat.le_add_right k _
  | answering ids =>
      simp only [answered, holds, decide_eq_true_eq]
      split <;> split <;> omega

theorem Inv.synced (h : Inv numThreads program past g) : Synced numThreads program g where
  others i hi j hj := by
    have hmet := (h.place i hi).met_le
    have hcome := (h.place j hj).le_come
    have hheld := answered_le_held past.length i j g.phase
    omega
  leader_waits i hi := by
    have hcome := (h.place i hi).le_come
    have hle := (answered_le past.length i g.phase).1
    rw [h.leaderMet_eq]
    omega
  leader_comes i hi := by
    have hmet := (h.place i hi).met_le
    have hle := (answered_le past.length i g.phase).2
    rw [leaderCome, h.leaderMet_eq]
    exact hmet.trans hle
  shared := h.shared
  requests i hi store hphase m rest hrequests := by
    have hplace := h.place i hi
    obtain ⟨m', ops, hops, -⟩ := (h.collecting store hphase).op
    have hmeeting := h.meeting hops
    rw [hphase, hrequests] at hplace
    obtain ⟨hrest, hmet, x, hx, rfl⟩ := hplace.sent_of_requests
    rw [hmet] at hx
    obtain rfl := Option.some.inj (hx.symm.trans hmeeting)
    exact ⟨hrest, hmet.trans h.leaderMet_eq.symm, ops, hops⟩
  replies i hi reply rest hreplies := by
    have hplace := h.place i hi
    rw [hreplies] at hplace
    obtain ⟨-, -, hrest, -, -, x, hx, hreply, hshared⟩ := hplace.of_replies
    exact ⟨hrest, x, hx, hreply, hreply ▸ take_answer _ hshared⟩

/-! ## The threads finish -/

/-- How many steps the leader has left for its operations. -/
def opsWork (numThreads : ℕ) : List (SharedOp P) → ℕ
  | [] => 0
  | .init _ :: ops => 1 + opsWork numThreads ops
  | .meet _ :: ops => 2 * (numThreads - 1) + 3 + opsWork numThreads ops

/-- How many steps the leader has left. -/
def leaderWork (numThreads : ℕ) (g : Group P) : ℕ :=
  match g.phase with
  | .away => opsWork numThreads g.ops
  | .collecting store =>
      opsWork numThreads g.ops.tail + (numThreads - 1 - store.length) + (numThreads - 1) + 2
  | .answering ids => opsWork numThreads g.ops.tail + ids.length + 1

/-- How many steps another thread has left. -/
def followerWork (program : List (SharedOp P)) (f : Follower P) : ℕ :=
  2 * ((schedule none program).length - f.met) - if f.waiting then 1 else 0

/-- How many steps are left. -/
def work (numThreads : ℕ) (program : List (SharedOp P)) (g : Group P) : ℕ :=
  leaderWork numThreads g +
    ∑ i ∈ Finset.range (numThreads - 1), followerWork program (g.followers i)

/-- A step of a thread that is not the leader. -/
theorem sum_work_lt (hi : i < numThreads - 1) {followers : ℕ → Follower P} {f : Follower P}
    (hlt : followerWork program f < followerWork program (followers i)) :
    ∑ j ∈ Finset.range (numThreads - 1), followerWork program (Function.update followers i f j) <
      ∑ j ∈ Finset.range (numThreads - 1), followerWork program (followers j) := by
  refine Finset.sum_lt_sum (fun j _ => ?_) ⟨i, Finset.mem_range.mpr hi, ?_⟩
  · by_cases hji : j = i
    · subst hji
      rw [Function.update_self]
      exact hlt.le
    · rw [Function.update_of_ne hji]
  · rwa [Function.update_self]

theorem begin_work (hstep : g.begin = some g') :
    g'.followers = g.followers ∧ leaderWork numThreads g' < leaderWork numThreads g := by
  unfold Group.begin at hstep
  split at hstep
  · next shared ops hphase hops =>
      obtain rfl := Option.some.inj hstep
      refine ⟨rfl, ?_⟩
      simp only [leaderWork, hphase, hops, opsWork]
      omega
  · next hphase hops =>
      split at hstep
      · obtain rfl := Option.some.inj hstep
        refine ⟨rfl, ?_⟩
        simp only [leaderWork, hphase, hops, opsWork, List.tail_cons, List.length_nil]
        omega
      · cases hstep
  · next hphase hops =>
      obtain rfl := Option.some.inj hstep
      refine ⟨rfl, ?_⟩
      simp only [leaderWork, hphase, hops, opsWork, List.tail_cons, List.length_nil]
      omega
  · cases hstep

theorem collect_work (hstep : g.collect numThreads i = some g') :
    g'.followers = g.followers ∧ leaderWork numThreads g' < leaderWork numThreads g := by
  unfold Group.collect at hstep
  split at hstep
  · next store m ops m' requests hphase hops hrequests =>
      split at hstep
      · next hcond =>
          obtain rfl := Option.some.inj hstep
          refine ⟨rfl, ?_⟩
          simp only [leaderWork, hphase, List.length_append, List.length_singleton]
          omega
      · cases hstep
  · cases hstep

theorem Inv.collected_work (h : Inv numThreads program past g)
    (hstep : g.collected numThreads = some g') :
    g'.followers = g.followers ∧ leaderWork numThreads g' < leaderWork numThreads g := by
  unfold Group.collected at hstep
  split at hstep
  · next store hphase =>
      split at hstep
      · cases hstep
      · obtain rfl := Option.some.inj hstep
        have hmeets := h.collecting store hphase
        have hsub : store ⊆ List.range (numThreads - 1) :=
          fun j hj => List.mem_range.mpr (hmeets.lt j hj)
        have hle := (List.subperm_of_subset hmeets.nodup hsub).length_le
        rw [List.length_range] at hle
        refine ⟨rfl, ?_⟩
        simp only [leaderWork, hphase]
        omega
  · cases hstep

theorem reply_work (hstep : g.reply = some g') :
    g'.followers = g.followers ∧ leaderWork numThreads g' < leaderWork numThreads g := by
  unfold Group.reply at hstep
  split at hstep
  · next i ids m ops hphase hops =>
      obtain rfl := Option.some.inj hstep
      refine ⟨rfl, ?_⟩
      simp only [leaderWork, hphase, List.length_cons]
      omega
  · cases hstep

theorem finish_work (hstep : g.finish = some g') :
    g'.followers = g.followers ∧ leaderWork numThreads g' < leaderWork numThreads g := by
  unfold Group.finish at hstep
  split at hstep
  · next op ops hphase hops =>
      obtain rfl := Option.some.inj hstep
      refine ⟨rfl, ?_⟩
      simp only [leaderWork, hphase, hops, List.tail_cons, List.length_nil]
      omega
  · cases hstep

theorem send_work (hstep : g.send numThreads program i = some g') :
    work numThreads program g' < work numThreads program g := by
  unfold Group.send at hstep
  split at hstep
  · next x hx =>
      split at hstep
      · next hcond =>
          obtain rfl := Option.some.inj hstep
          obtain ⟨hlt, -⟩ := List.getElem?_eq_some_iff.mp hx
          refine Nat.add_lt_add_left (sum_work_lt hcond.1 ?_) _
          simp only [followerWork, hcond.2, if_true, Bool.false_eq_true, if_false]
          omega
      · cases hstep
  · cases hstep

theorem Inv.receive_work (h : Inv numThreads program past g)
    (hstep : g.receive program i = some g') :
    work numThreads program g' < work numThreads program g := by
  unfold Group.receive at hstep
  split at hstep
  · next x reply replies hx hreplies =>
      split at hstep
      · next hwaiting =>
          obtain ⟨f, htake, rfl⟩ := Option.map_eq_some_iff.mp hstep
          obtain ⟨hlt, -⟩ := List.getElem?_eq_some_iff.mp hx
          have hi : i < numThreads - 1 := by
            by_contra hge
            cases hreplies.symm.trans (h.nobody i (not_lt.mp hge)).2
          have hplace := h.place i hi
          rw [hreplies] at hplace
          obtain ⟨-, -, -, -, -, y, hy, rfl, -⟩ := hplace.of_replies
          obtain rfl := Option.some.inj (hx.symm.trans hy)
          obtain ⟨hmet, hdone, -⟩ := take_spec hx (h.shared i hi) htake
          refine Nat.add_lt_add_left (sum_work_lt hi ?_) _
          simp only [followerWork, hwaiting, hmet, hdone, if_true, Bool.false_eq_true, if_false]
          omega
      · cases hstep
  · cases hstep

/-- **Every step** leaves less to do. -/
theorem Inv.work_lt {s : GroupStep} (h : Inv numThreads program past g)
    (hstep : Group.step numThreads program g s = some (g', o)) :
    work numThreads program g' < work numThreads program g := by
  obtain ⟨g₁, hmove, heq⟩ := Option.map_eq_some_iff.mp hstep
  obtain ⟨rfl, -⟩ := Prod.mk.inj heq
  have hleader : g₁.followers = g.followers ∧
      leaderWork numThreads g₁ < leaderWork numThreads g →
      work numThreads program g₁ < work numThreads program g := by
    rintro ⟨hsame, hlt⟩
    rw [work, work, hsame]
    exact Nat.add_lt_add_right hlt _
  cases s with
  | start => exact hleader (begin_work hmove)
  | collect i => exact hleader (collect_work hmove)
  | collected => exact hleader (h.collected_work hmove)
  | reply => exact hleader (reply_work hmove)
  | finish => exact hleader (finish_work hmove)
  | send i => exact send_work hmove
  | receive i => exact h.receive_work hmove

/-- `Init` comes before the first `SyncState`. -/
def Initialised (program : List (SharedOp P)) : Prop :=
  ∀ x ∈ schedule none program, x.1 = .syncState → x.2.isSome

/-- All threads have returned from all meetings. -/
structure Finished (numThreads : ℕ) (program : List (SharedOp P)) (g : Group P) : Prop where
  ops : g.ops = []
  away : g.phase = .away
  others : ∀ i < numThreads - 1,
    (g.followers i).met = (schedule none program).length ∧ (g.followers i).waiting = false

/-- A thread that has an answer can receive it. -/
theorem Inv.receive_some (h : Inv numThreads program past g) (hi : i < numThreads - 1)
    (hreplies : g.replies i ≠ []) : ∃ g', g.receive program i = some g' := by
  obtain ⟨reply, replies, hreplies⟩ := List.exists_cons_of_ne_nil hreplies
  have hplace := h.place i hi
  rw [hreplies] at hplace
  obtain ⟨-, -, -, hwaiting, -, x, hx, rfl, hshared⟩ := hplace.of_replies
  obtain ⟨f, hf⟩ := Option.isSome_iff_exists.mp (take_answer (g.followers i) hshared)
  rw [Group.receive, hx, hreplies]
  simp only [hwaiting, if_true]
  exact ⟨_, Option.map_eq_some_iff.mpr ⟨f, hf, rfl⟩⟩

/-- A thread that is not in a meeting can come to the next one. -/
theorem send_some (hi : i < numThreads - 1) (hwaiting : (g.followers i).waiting = false)
    (hmet : (g.followers i).met < (schedule none program).length) :
    ∃ g', g.send numThreads program i = some g' := by
  rw [Group.send, List.getElem?_eq_getElem hmet]
  simp only [if_pos (And.intro hi hwaiting)]
  exact ⟨_, rfl⟩

/-- The leader can begin with its next operation. -/
theorem Inv.begin_some (h : Inv numThreads program past g) (hinit : Initialised program)
    (hphase : g.phase = .away) (hops : g.ops ≠ []) : ∃ g', g.begin = some g' := by
  obtain ⟨op, ops, hops⟩ := List.exists_cons_of_ne_nil hops
  rw [Group.begin, hphase, hops]
  cases op with
  | init shared => exact ⟨_, rfl⟩
  | meet m =>
      cases m with
      | syncState =>
          have hshared : g.shared.isSome :=
            hinit (.syncState, g.shared) (List.mem_of_getElem? (h.meeting hops)) rfl
          simp only [if_pos hshared]
          exact ⟨_, rfl⟩
      | barrier => exact ⟨_, rfl⟩

/-- **When no step is possible**, all threads have finished. -/
theorem Inv.finished (h : Inv numThreads program past g) (hinit : Initialised program)
    (hstuck : ∀ s, Group.step numThreads program g s = none) :
    Finished numThreads program g := by
  have hbegin : g.begin = none := Option.map_eq_none_iff.mp (hstuck .start)
  have hcollect : ∀ i, g.collect numThreads i = none :=
    fun i => Option.map_eq_none_iff.mp (hstuck (.collect i))
  have hcollected : g.collected numThreads = none := Option.map_eq_none_iff.mp (hstuck .collected)
  have hreply : g.reply = none := Option.map_eq_none_iff.mp (hstuck .reply)
  have hfinish : g.finish = none := Option.map_eq_none_iff.mp (hstuck .finish)
  have hsend : ∀ i < numThreads - 1, (g.followers i).waiting = false →
      (schedule none program).length ≤ (g.followers i).met := by
    intro i hi hwaiting
    by_contra hlt
    obtain ⟨g', hg'⟩ : ∃ g', g.send numThreads program i = some g' :=
      send_some hi hwaiting (not_le.mp hlt)
    cases hg'.symm.trans (Option.map_eq_none_iff.mp (hstuck (.send i)))
  have hreceive : ∀ i < numThreads - 1, g.replies i = [] := by
    intro i hi
    by_contra hne
    obtain ⟨g', hg'⟩ := h.receive_some hi hne
    cases hg'.symm.trans (Option.map_eq_none_iff.mp (hstuck (.receive i)))
  cases hphase : g.phase with
  | away =>
      have hops : g.ops = [] := by
        by_contra hne
        obtain ⟨g', hg'⟩ := h.begin_some hinit hphase hne
        cases hg'.symm.trans hbegin
      refine ⟨hops, hphase, fun i hi => ?_⟩
      have hlength : past.length = (schedule none program).length := by
        rw [h.split, hops, List.length_append]
        rfl
      have hplace := h.place i hi
      rw [hphase, hreceive i hi] at hplace
      generalize g.requests i = requests at hplace
      cases hplace with
      | away _ hwaiting hmet => exact ⟨hmet.trans hlength, hwaiting⟩
      | sent _ x hwaiting hmet hx =>
          obtain ⟨hlt, -⟩ := List.getElem?_eq_some_iff.mp hx
          simp only [answered] at hmet
          omega
  | collecting store =>
      exfalso
      have hmeets := h.collecting store hphase
      obtain ⟨m, ops, hops, -⟩ := hmeets.op
      by_cases hlength : store.length < numThreads - 1
      · -- somebody is missing
        obtain ⟨i, hi, hnot⟩ : ∃ i < numThreads - 1, i ∉ store := by
          by_contra hall
          have hsub : List.range (numThreads - 1) ⊆ store := by
            intro i hi
            by_contra hnot
            exact hall ⟨i, List.mem_range.mp hi, hnot⟩
          have hle := (List.subperm_of_subset List.nodup_range hsub).length_le
          rw [List.length_range] at hle
          omega
        have hplace := h.place i hi
        rw [hphase, hreceive i hi] at hplace
        simp only [answered, holds, decide_eq_false hnot] at hplace
        have hmeeting := h.meeting hops
        obtain ⟨hlt, -⟩ := List.getElem?_eq_some_iff.mp hmeeting
        generalize hrequests : g.requests i = requests at hplace
        cases hplace with
        | away _ hwaiting hmet =>
            have hle := hsend i hi hwaiting
            omega
        | sent _ x _ hmet hx =>
            obtain rfl : x = (m, g.shared) := by
              rw [hmet, hmeeting] at hx
              exact (Option.some.inj hx).symm
            obtain ⟨g', hg'⟩ : ∃ g', g.collect numThreads i = some g' := by
              rw [Group.collect, hphase, hops, hrequests]
              exact ⟨_, if_pos ⟨hlength, rfl⟩⟩
            cases hg'.symm.trans (hcollect i)
      · rw [Group.collected, hphase] at hcollected
        simp only [if_neg hlength] at hcollected
        cases hcollected
  | answering ids =>
      exfalso
      obtain ⟨m, ops, hops, -⟩ := (h.answering ids hphase).op
      cases ids with
      | nil =>
          rw [Group.finish, hphase, hops] at hfinish
          cases hfinish
      | cons i ids =>
          rw [Group.reply, hphase, hops] at hreply
          cases hreply

end Group

/-- **The threads synchronise**, whatever the leader's operations are: in every run, nobody returns
from `SyncState` or `Barrier` before everybody has come to it, `Get` returns what the leader had
shared at the last `SyncState`, and no message is taken for one of another meeting. -/
theorem shared_state_synced {P : Type} (numThreads : ℕ) (program : List (SharedOp P))
    (steps : List GroupStep) (g : Group P) (out : List Unit) (hrun : run
      (Group.step numThreads program) (.start program) steps = some (g, out)) :
    Group.Synced numThreads program g := by
  obtain ⟨past, h⟩ := Group.inv_of_run hrun
  exact h.synced

/-- **No thread waits forever**: when `Init` comes before the first `SyncState`, every run has a bounded
number of steps, and a run that cannot go on has brought all threads to the end. -/
theorem shared_state_finishes {P : Type} (numThreads : ℕ) (program : List (SharedOp P))
    (hinit : Group.Initialised program) (steps : List GroupStep) (g : Group P) (out : List Unit)
    (hrun : run (Group.step numThreads program) (.start program) steps = some (g, out)) :
    steps.length + g.work numThreads program ≤ (Group.start program).work numThreads program ∧
      ((∀ s, Group.step numThreads program g s = none) → Group.Finished numThreads program g) := by
  obtain ⟨⟨past, h⟩, hlength⟩ := run_length_le
    (I := fun g => ∃ past, Group.Inv numThreads program past g)
    (fun ⟨_, h⟩ hstep => ⟨h.step hstep, h.work_lt hstep⟩)
    ⟨[], Group.inv_start numThreads program⟩ hrun
  exact ⟨hlength, h.finished hinit⟩

/-! ## `SPMTWorker` -/

/-- What the threads of an `SPMTWorker` do together: its constructor shares the controller and the
model, and waits for `Load`; its destructor waits before and after `Dump`, and before it deletes what
is shared. -/
def spmtWorker {P : Type} (state : P) : List (SharedOp P) :=
  [.init state, .meet .syncState, .meet .barrier, .meet .barrier, .meet .barrier, .meet .barrier]

/-- **The threads of an `SPMTWorker` use the model in time**: a thread that is not the leader and is
between `Load` and `Dump`, where it pulls and pushes, has the leader's pointer; the leader has come out
of `Load`, has not gone on to `Dump`, and has deleted nothing; and when the leader deletes what is
shared, every other thread has come to the end of its destructor. -/
theorem spmt_uses_in_time {P : Type} (numThreads : ℕ) (state : P) (steps : List GroupStep)
    (g : Group P) (out : List Unit) (hrun : run (Group.step numThreads (spmtWorker state))
      (.start (spmtWorker state)) steps = some (g, out)) :
    (∀ i < numThreads - 1, (g.followers i).met = 2 → (g.followers i).waiting = false →
      (g.followers i).shared = some state ∧ 2 ≤ Group.leaderCome (spmtWorker state) g ∧
        Group.leaderMet (spmtWorker state) g ≤ 2) ∧
    (∀ k, Group.leaderMet (spmtWorker state) g = k → ∀ i < numThreads - 1,
      k ≤ (g.followers i).come) := by
  have hsynced := shared_state_synced numThreads (spmtWorker state) steps g out hrun
  refine ⟨fun i hi hmet hwaiting => ⟨?_, ?_, ?_⟩, ?_⟩
  · rw [hsynced.shared i hi, hmet]
    rfl
  · exact hmet ▸ hsynced.leader_comes i hi
  · have hwaits := hsynced.leader_waits i hi
    rw [Follower.come, hwaiting, hmet] at hwaits
    exact hwaits
  · rintro k rfl i hi
    exact hsynced.leader_waits i hi

/-- The leader shares a number and waits for two other threads. -/
def shareAndWait : List (SharedOp ℕ) := [.init 7, .meet .syncState, .meet .barrier]

/-- The second thread is in the barrier before the first one has seen the number. -/
def halfWay : List GroupStep :=
  [.send 1, .start, .start, .collect 1, .send 0, .collect 0, .collected, .reply, .reply, .receive 1,
    .send 1]

/-- The threads leave the barrier. -/
def theEnd : List GroupStep :=
  [.finish, .receive 0, .start, .collect 1, .send 0, .collect 0, .collected, .reply, .receive 1,
    .reply, .receive 0, .finish]

theorem shared_state_synced_three : ∃ g out, run (Group.step 3 shareAndWait) (.start shareAndWait)
      halfWay = some (g, out) ∧ (g.followers 0).shared = none ∧ (g.followers 1).shared = some 7 ∧
    Group.Synced 3 shareAndWait g :=
  ⟨_, _, rfl, rfl, rfl, shared_state_synced 3 shareAndWait halfWay _ _ rfl⟩

theorem shared_state_finishes_three : ∃ g out, run (Group.step 3 shareAndWait)
      (.start shareAndWait) (halfWay ++ theEnd) = some (g, out) ∧
    Group.Finished 3 shareAndWait g := by
  have hinit : Group.Initialised shareAndWait := by
    intro x hx
    rcases List.mem_cons.mp hx with rfl | hx
    · exact fun _ => rfl
    · obtain rfl := List.mem_singleton.mp hx
      rintro ⟨⟩
  refine ⟨_, _, rfl, (shared_state_finishes 3 shareAndWait hinit (halfWay ++ theEnd) _ _ rfl).2 ?_⟩
  rintro (_ | i | _ | _ | _ | (_ | _ | i) | (_ | _ | i))
  all_goals rfl

/-- The threads are between `Load` and `Dump`, while the leader still answers the first of them. -/
def between : List GroupStep :=
  halfWay ++ [.finish, .receive 0, .start, .collect 1, .send 0, .collect 0, .collected, .reply,
    .receive 1]

theorem spmt_uses_in_time_three : ∃ g out, run (Group.step 3 (spmtWorker 7))
      (.start (spmtWorker 7)) between = some (g, out) ∧
    (g.followers 1).met = 2 ∧ (g.followers 1).shared = some 7 ∧
    2 ≤ Group.leaderCome (spmtWorker 7) g ∧ Group.leaderMet (spmtWorker 7) g ≤ 2 :=
  ⟨_, _, rfl, rfl, (spmt_uses_in_time 3 7 between _ _ rfl).1 1 (by decide) rfl rfl⟩

end FlexPS.ML
