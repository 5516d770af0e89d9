import FlexPS.Lib.Dict
import Mathlib.Tactic.Tauto

/-!
# The threads of running instances

The schedulers keep the threads that have not finished in maps of maps of sets, by the id of the
instance and the process of the thread.  An instance is done when its last process is removed.

## Main definitions

* `Tracking` — `task_id_pid_tids_`.
* `Tracking.track`, `Tracking.untrack` — an instance starts, and a thread finishes.
* `Tracking.Tight` — no set in the map is empty.
-/

namespace FlexPS.Scheduler

open Lib

/-- `task_id_pid_tids_`. -/
abbrev Tracking := Dict ℕ (Dict ℕ (List ℕ))

namespace Tracking

/-- `task_id_pid_tids_[id]`. -/
def procs (m : Tracking) (id : ℕ) : Dict ℕ (List ℕ) := m.getD id ∅

/-- `task_id_pid_tids_[id][pid]`. -/
def tids (m : Tracking) (id pid : ℕ) : List ℕ := (m.procs id).getD pid []

/-- `task_id_pid_tids_[id][pid].insert(tid)`. -/
def trackOne (m : Tracking) (id : ℕ) (p : ℕ × ℕ) : Tracking :=
  m.set id ((m.procs id).set p.1 ((m.tids id p.1).insert p.2))

/-- The threads of a new instance. -/
def track (m : Tracking) (id : ℕ) (pidTids : List (ℕ × ℕ)) : Tracking :=
  pidTids.foldl (fun m p => m.trackOne id p) m

/-- A thread has finished; the flag says that no process is left. -/
def untrack (m : Tracking) (id pid tid : ℕ) : Tracking × Bool :=
  let threads := (m.tids id pid).erase tid
  if threads = [] then
    let procs := (m.procs id).drop pid
    (m.set id procs, procs.isEmpty)
  else (m.set id ((m.procs id).set pid threads), false)

/-- All sets are sets, and a set that is empty is not in the map. -/
structure Tight (m : Tracking) : Prop where
  nodup : ∀ id pid, (m.tids id pid).Nodup
  ne_nil : ∀ id, ∀ pid ∈ m.procs id, m.tids id pid ≠ []

/-- The instance has a thread. -/
def Running (m : Tracking) (id : ℕ) : Prop := ∃ pid, m.tids id pid ≠ []

variable {m : Tracking} {id pid tid : ℕ}

theorem procs_set (m : Tracking) (id id' : ℕ) (procs : Dict ℕ (List ℕ)) :
    Tracking.procs (m.set id procs) id' = if id' = id then procs else m.procs id' := by
  by_cases h : id' = id
  · subst h
    rw [if_pos rfl]
    exact Dict.getD_set_self _ _ _ _
  · rw [if_neg h]
    exact Dict.getD_set_of_ne _ h _ _

theorem tids_set (m : Tracking) (id id' pid : ℕ) (procs : Dict ℕ (List ℕ)) :
    Tracking.tids (m.set id procs) id' pid =
      if id' = id then procs.getD pid [] else m.tids id' pid := by
  rw [tids, procs_set]
  split <;> rfl

theorem tight_empty : Tight ∅ where
  nodup _ _ := List.nodup_nil
  ne_nil _ pid hpid := by
    have hpid : pid ∈ (∅ : Dict ℕ (List ℕ)) := hpid
    exact absurd hpid (AList.notMem_empty pid)

/-! ## An instance starts -/

theorem tids_trackOne (m : Tracking) (id : ℕ) (p : ℕ × ℕ) (id' pid : ℕ) :
    (m.trackOne id p).tids id' pid =
      if id' = id ∧ pid = p.1 then (m.tids id p.1).insert p.2 else m.tids id' pid := by
  rw [trackOne, tids_set]
  by_cases hid : id' = id
  · subst hid
    by_cases hpid : pid = p.1
    · subst hpid
      rw [if_pos rfl, if_pos ⟨rfl, rfl⟩, Dict.getD_set_self]
    · rw [if_pos rfl, if_neg fun h => hpid h.2, Dict.getD_set_of_ne _ hpid]
      rfl
  · rw [if_neg hid, if_neg fun h => hid h.1]

theorem mem_tids_track (m : Tracking) (id : ℕ) (pidTids : List (ℕ × ℕ)) (id' pid tid : ℕ) :
    tid ∈ (m.track id pidTids).tids id' pid ↔
      tid ∈ m.tids id' pid ∨ (id' = id ∧ (pid, tid) ∈ pidTids) := by
  unfold track
  induction pidTids generalizing m with
  | nil => simp
  | cons p pidTids ih =>
      rw [List.foldl_cons, ih, tids_trackOne, List.mem_cons]
      by_cases h : id' = id ∧ pid = p.1
      · obtain ⟨rfl, rfl⟩ := h
        rw [if_pos ⟨rfl, rfl⟩, List.mem_insert_iff]
        have hp : (p.1, tid) = p ↔ tid = p.2 := by
          rw [Prod.ext_iff]
          simp
        rw [hp]
        tauto
      · rw [if_neg h]
        have hp : (pid, tid) = p → ¬ id' = id := by
          rintro rfl hid
          exact h ⟨hid, rfl⟩
        tauto

theorem Tight.trackOne (h : m.Tight) (id : ℕ) (p : ℕ × ℕ) : (m.trackOne id p).Tight where
  nodup id' pid := by
    rw [tids_trackOne]
    split
    · exact (h.nodup id p.1).insert
    · exact h.nodup id' pid
  ne_nil id' pid hpid := by
    rw [tids_trackOne]
    split
    · exact List.ne_nil_of_mem (List.mem_insert_iff.mpr (.inl rfl))
    · next hne =>
        rw [Tracking.trackOne, procs_set] at hpid
        split at hpid
        · next hid =>
            subst hid
            rw [Dict.mem_set] at hpid
            exact h.ne_nil _ _ (hpid.resolve_left fun heq => hne ⟨rfl, heq⟩)
        · exact h.ne_nil _ _ hpid

theorem Tight.track (h : m.Tight) (id : ℕ) (pidTids : List (ℕ × ℕ)) :
    (m.track id pidTids).Tight := by
  unfold Tracking.track
  induction pidTids generalizing m with
  | nil => exact h
  | cons p pidTids ih => exact ih (h.trackOne id p)

theorem mem_track (m : Tracking) (id : ℕ) (pidTids : List (ℕ × ℕ)) (id' : ℕ)
    (h : id' ∈ m.track id pidTids) : id' = id ∨ id' ∈ m := by
  unfold track at h
  induction pidTids generalizing m with
  | nil => exact .inr h
  | cons p pidTids ih =>
      rcases ih _ h with hid | hid
      · exact .inl hid
      · exact (Dict.mem_set ..).mp hid

/-! ## A thread finishes -/

theorem tids_untrack (m : Tracking) (id pid tid id' pid' : ℕ) :
    (m.untrack id pid tid).1.tids id' pid' =
      if id' = id ∧ pid' = pid then (m.tids id pid).erase tid else m.tids id' pid' := by
  unfold untrack
  simp only
  split
  · next hnil =>
      rw [tids_set]
      by_cases hid : id' = id
      · subst hid
        by_cases hpid : pid' = pid
        · subst hpid
          rw [if_pos rfl, if_pos ⟨rfl, rfl⟩, Dict.getD_drop_self, hnil]
        · rw [if_pos rfl, if_neg fun h => hpid h.2, Dict.getD_drop_of_ne _ hpid]
          rfl
      · rw [if_neg hid, if_neg fun h => hid h.1]
  · rw [tids_set]
    by_cases hid : id' = id
    · subst hid
      by_cases hpid : pid' = pid
      · subst hpid
        rw [if_pos rfl, if_pos ⟨rfl, rfl⟩, Dict.getD_set_self]
      · rw [if_pos rfl, if_neg fun h => hpid h.2, Dict.getD_set_of_ne _ hpid]
        rfl
    · rw [if_neg hid, if_neg fun h => hid h.1]

theorem mem_untrack (m : Tracking) (id pid tid id' : ℕ) (h : id' ∈ (m.untrack id pid tid).1) :
    id' = id ∨ id' ∈ m := by
  unfold untrack at h
  simp only at h
  split at h
  · exact (Dict.mem_set ..).mp h
  · exact (Dict.mem_set ..).mp h

/-- An instance that runs has an entry. -/
theorem Running.mem (h : m.Running id) : id ∈ m := by
  obtain ⟨pid, hne⟩ := h
  by_contra hnot
  refine hne ?_
  rw [tids, procs, Dict.getD_of_not_mem hnot]
  rfl

theorem Tight.mem_tids_untrack (h : m.Tight) (id pid tid id' pid' tid' : ℕ) :
    tid' ∈ (m.untrack id pid tid).1.tids id' pid' ↔
      tid' ∈ m.tids id' pid' ∧ ¬ (id' = id ∧ pid' = pid ∧ tid' = tid) := by
  rw [tids_untrack]
  split
  · next heq =>
      obtain ⟨rfl, rfl⟩ := heq
      rw [(h.nodup _ _).mem_erase_iff]
      tauto
  · next hne => tauto

theorem Tight.untrack (h : m.Tight) (id pid tid : ℕ) : (m.untrack id pid tid).1.Tight where
  nodup id' pid' := by
    rw [tids_untrack]
    split
    · exact (h.nodup id pid).erase tid
    · exact h.nodup id' pid'
  ne_nil id' pid' hpid' := by
    rw [tids_untrack]
    unfold Tracking.untrack at hpid'
    simp only at hpid'
    split at hpid'
    · next hnil =>
        rw [procs_set] at hpid'
        split at hpid'
        · next hid =>
            subst hid
            obtain ⟨hne, hpid'⟩ := (Dict.mem_drop ..).mp hpid'
            rw [if_neg fun heq => hne heq.2]
            exact h.ne_nil _ _ hpid'
        · next hid =>
            rw [if_neg fun heq => hid heq.1]
            exact h.ne_nil _ _ hpid'
    · next hne =>
        split
        · exact hne
        · next hother =>
            rw [procs_set] at hpid'
            split at hpid'
            · next hid =>
                subst hid
                rcases (Dict.mem_set ..).mp hpid' with hpid' | hpid'
                · exact absurd ⟨rfl, hpid'⟩ hother
                · exact h.ne_nil _ _ hpid'
            · exact h.ne_nil _ _ hpid'

/-- **The flag is set when the last thread of the instance has finished.** -/
theorem Tight.untrack_done (h : m.Tight) (id pid tid : ℕ) :
    (m.untrack id pid tid).2 = true ↔ ¬ (m.untrack id pid tid).1.Running id := by
  have htight := h.untrack id pid tid
  have hrunning : ∀ id', (m.untrack id pid tid).1.Running id' ↔
      ∃ pid', pid' ∈ (m.untrack id pid tid).1.procs id' := by
    intro id'
    refine ⟨fun ⟨pid', hne⟩ => ⟨pid', ?_⟩, fun ⟨pid', hmem⟩ => ⟨pid', htight.ne_nil _ _ hmem⟩⟩
    by_contra hnot
    exact hne (Dict.getD_of_not_mem hnot [])
  rw [hrunning]
  unfold Tracking.untrack
  simp only
  split
  · rw [Dict.isEmpty_iff, procs_set, if_pos rfl, not_exists]
  · rw [procs_set, if_pos rfl]
    simp only [Bool.false_eq_true, false_iff, not_not]
    exact ⟨pid, (Dict.mem_set ..).mpr (.inl rfl)⟩

/-! ## An instance is removed -/

theorem tids_drop (h : ¬ m.Running id) (id' pid : ℕ) :
    Tracking.tids (m.drop id) id' pid = m.tids id' pid := by
  by_cases hid : id' = id
  · subst hid
    have hnil : m.tids id' pid = [] := by
      by_contra hne
      exact h ⟨pid, hne⟩
    rw [hnil, tids, procs, Dict.getD_drop_self]
    rfl
  · rw [tids, tids, procs, procs, Dict.getD_drop_of_ne _ hid]

theorem Tight.drop (h : m.Tight) (hid : ¬ m.Running id) : Tight (m.drop id) where
  nodup id' pid := by
    rw [tids_drop hid]
    exact h.nodup id' pid
  ne_nil id' pid hpid := by
    rw [tids_drop hid]
    refine h.ne_nil id' pid ?_
    by_cases heq : id' = id
    · subst heq
      rw [procs, Dict.getD_drop_self] at hpid
      exact absurd hpid (AList.notMem_empty pid)
    · rwa [procs, Dict.getD_drop_of_ne _ heq] at hpid

end Tracking

end FlexPS.Scheduler
