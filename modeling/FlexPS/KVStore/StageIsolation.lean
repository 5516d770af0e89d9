import FlexPS.KVStore.Stage
import FlexPS.KVStore.RangeManager

/-!
# When a change of epochs is safe

A new epoch counts no message of the one before if every worker's last request to the
server was not empty, so that its reply was awaited.  An empty last request may be counted
in the next epoch.

## Main definitions

* `handover` — one worker hands the server over to the next.
* `stage_isolation` — acknowledged epochs are isolated, on both consistency servers.
-/

namespace FlexPS.KVStore

open Lib

/-- Epoch `e` is run by worker `e` alone: it pulls key 0, which this server holds, and then
pushes `last`. -/
def handover (last : BinStream ℤ) : Stages ℤ where
  workers e := {e}
  start w e := if w < e then 3 else 0
  start_zero w := by simp
  start_le_succ w e := by
    split
    · next h => rw [if_pos (by omega)]
    · exact Nat.zero_le _
  mem_workers w e := by
    rw [Finset.mem_singleton]
    by_cases h₁ : w < e
    · simp only [if_pos h₁, if_pos (show w < e + 1 by omega)]
      omega
    · by_cases h₂ : w < e + 1
      · simp only [if_neg h₁, if_pos h₂]
        omega
      · simp only [if_neg h₁, if_neg h₂]
        omega
  workers_nonempty e := ⟨e, by simp⟩
  epoch w _ := w
  epoch_eq w m e hlo hhi := by
    by_cases h₁ : w < e
    · rw [if_pos h₁] at hlo
      rw [if_pos (by omega)] at hhi
      omega
    · by_cases h₂ : w < e + 1
      · omega
      · rw [if_neg h₂] at hhi
        omega
  ts _ m := m
  ts_injective _ := Function.injective_id
  push _ m := m == 2
  body _ m := if m = 1 then ⟨0, Cell.words.put [0]⟩ else ⟨0, last⟩
  body_cmd _ m := by
    split <;> simp

/-- An epoch whose last push is not empty is acknowledged. -/
theorem acknowledged_handover (last : BinStream ℤ) (hlast : last ≠ []) :
    (handover last).Acknowledged := by
  intro e w hw
  obtain rfl : w = e := Finset.mem_singleton.mp hw
  refine Or.inl ?_
  simpa [Stages.message, Stages.IsInit, handover] using hlast

/-- Worker 0 pulls, pushes nothing to this server and returns; worker 1 takes over, and its
Init overtakes worker 0's empty push. -/
def overtaken : List StageAct :=
  [.send 0, .send 0, .send 0, .deliver 0, .deliver 0, .nextEpoch, .send 1, .deliver 1, .deliver 0]

/-- A run in which a delivery is not isolated, read off its log. -/
theorem not_isolated_of_log {Srv Val C : Type} {A : ConsistencyServer Srv Val C} {P : Stages Val}
    {t : RangeTable} {kvId : ℕ} {start : Srv} {acts : List StageAct} (log : List (Delivery C))
    (d : Delivery C) {b : ℕ}
    (hlog : (run (stageStep A P t kvId) (stageInit start) acts).map Prod.snd = some log)
    (hd : d ∈ log) (hbegun : d.begun = some b) (hchanged : d.before ≠ d.after)
    (hearlier : P.epoch d.worker d.number < b) :
    ∃ s log, run (stageStep A P t kvId) (stageInit start) acts = some (s, log) ∧
      ∃ d ∈ log, ¬ Isolated P d := by
  obtain ⟨⟨s, log'⟩, hrun, rfl⟩ := Option.map_eq_some_iff.mp hlog
  refine ⟨s, log', hrun, d, hd, fun hiso => ?_⟩
  rcases hiso b hbegun hchanged with ⟨-, hlater⟩ | ⟨-, hsame⟩
  · omega
  · omega

/-- **An empty last push is counted in the next epoch**, on both consistency servers. -/
theorem stage_isolation_fails :
    (∃ s log, run (stageStep BSPServer.consistency (handover []) (setMaxKeyAndChunkSize 1 9 2) 0)
        (stageInit (BSPServer.new 0 1 (⟨fun _ => none⟩ : MapStore ℤ) false false)) overtaken =
          some (s, log) ∧ ∃ d ∈ log, ¬ Isolated (handover []) d) ∧
    ∃ s log, run (stageStep SSPServer.consistency (handover []) (setMaxKeyAndChunkSize 1 9 2) 0)
        (stageInit (SSPServer.new 0 1 (⟨fun _ => none⟩ : MapStore ℤ) false 1)) overtaken =
          some (s, log) ∧ ∃ d ∈ log, ¬ Isolated (handover []) d := by
  constructor
  · refine not_isolated_of_log (b := 1) [⟨none, 0, 0, ([], [], [], []), ([], [], [], [])⟩,
        ⟨some 0, 0, 1, ([], [], [], []), ([], [1], [], [1])⟩,
        ⟨some 0, 1, 0, ([], [1], [], [1]), ([], [], [], [])⟩,
        ⟨some 1, 0, 2, ([], [], [], []), ([1], [], [1], [])⟩]
      ⟨some 1, 0, 2, ([], [], [], []), ([1], [], [1], [])⟩ ?_ (by simp) rfl (by decide) (by decide)
    rfl
  · refine not_isolated_of_log (b := 1) [⟨none, 0, 0, ([], [0]), ([], [])⟩,
        ⟨some 0, 0, 1, ([], []), ([], [0])⟩, ⟨some 0, 1, 0, ([], [0]), ([], [])⟩,
        ⟨some 1, 0, 2, ([], []), ([1], [1])⟩]
      ⟨some 1, 0, 2, ([], []), ([1], [1])⟩ ?_ (by simp) rfl (by decide) (by decide)
    rfl

section Isolation

variable {S Val : Type} [StorageT S Val] [Add Val] {P : Stages Val}

/-- **Acknowledged epochs are isolated.**  If every worker ends each of its epochs with a
non-empty request to the server, or is the only worker of the next epoch, then in every
run of a new BSP or SSP server, whatever the order of deliveries, no counter of an epoch
is changed by a message of another one. -/
theorem stage_isolation (hack : P.Acknowledged) (t : RangeTable) (kvId : ℕ) (acts : List StageAct) :
    (∀ (serverId : ℕ) (numWorkers : ℤ) (store : S) (isVector isAssign : Bool) s log,
      run (stageStep BSPServer.consistency P t kvId)
        (stageInit (BSPServer.new serverId numWorkers store isVector isAssign)) acts =
          some (s, log) → ∀ d ∈ log, Isolated P d) ∧
    ∀ (serverId : ℕ) (numWorkers : ℤ) (store : S) (isVector : Bool) (staleness : ℕ) s log,
      run (stageStep SSPServer.consistency P t kvId)
        (stageInit (SSPServer.new serverId numWorkers store isVector staleness)) acts =
          some (s, log) → ∀ d ∈ log, Isolated P d := by
  constructor
  · intro serverId numWorkers store isVector isAssign s log hrun
    have hinit := stageInv_init (A := BSPServer.consistency) (P := P)
      (BSPServer.new serverId numWorkers store isVector isAssign) rfl
      fun x hx => hx.elim (inBuffer_nil x) (inBuffer_nil x)
    have hlog := (run_invariant (Q := fun _ d => Isolated P d)
      (fun h hstep => stageInv_step hack h hstep) hinit hrun).2
    intro d hd
    obtain ⟨_, -, hisolated⟩ := hlog d hd
    exact hisolated
  · intro serverId numWorkers store isVector staleness s log hrun
    have hinit := stageInv_init (A := SSPServer.consistency) (P := P)
      (SSPServer.new serverId numWorkers store isVector staleness) rfl
      fun x hx => hx.elim (inBuffer_nil x) (inBuffer_nil x)
    have hlog := (run_invariant (Q := fun _ d => Isolated P d)
      (fun h hstep => stageInv_step hack h hstep) hinit hrun).2
    intro d hd
    obtain ⟨_, -, hisolated⟩ := hlog d hd
    exact hisolated

end Isolation

/-- Worker 0 pulls and pushes to this server and returns; worker 1 takes over and does the
same. -/
theorem stage_isolation_handover : ∃ s log,
    run (stageStep BSPServer.consistency (handover (Cell.words.put [0] ++ Cell.vals.put [1]))
        (setMaxKeyAndChunkSize 1 9 2) 0)
      (stageInit (BSPServer.new 0 1 (⟨fun _ => none⟩ : MapStore ℤ) false false))
      [.send 0, .send 0, .send 0, .deliver 0, .deliver 0, .deliver 0, .nextEpoch, .send 1,
        .deliver 1, .send 1, .deliver 1] = some (s, log) ∧ log.length = 5 ∧
      ∀ d ∈ log, Isolated (handover (Cell.words.put [0] ++ Cell.vals.put [1])) d := by
  have hlog : (run (stageStep BSPServer.consistency
      (handover (Cell.words.put [0] ++ Cell.vals.put [1])) (setMaxKeyAndChunkSize 1 9 2) 0)
      (stageInit (BSPServer.new 0 1 (⟨fun _ => none⟩ : MapStore ℤ) false false))
      [.send 0, .send 0, .send 0, .deliver 0, .deliver 0, .deliver 0, .nextEpoch, .send 1,
        .deliver 1, .send 1, .deliver 1]).map (fun p => p.2.length) = some 5 := rfl
  obtain ⟨⟨s, log⟩, hrun, hlength⟩ := Option.map_eq_some_iff.mp hlog
  have hack := acknowledged_handover (Cell.words.put [0] ++ Cell.vals.put [1]) (by simp)
  exact ⟨s, log, hrun, hlength, (stage_isolation hack _ 0 _).1 0 1 _ false false s log hrun⟩

end FlexPS.KVStore
