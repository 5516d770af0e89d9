import FlexPS.Scheduler.AvailableWorkers

/-!
# What the routines take

Every routine of `AvailableWorkers` takes free threads, and takes them from both views; when it
cannot take what it is asked for, it takes nothing.

## Main definitions

* `Takes` — some free threads are taken, and nothing else changes.
* `takes_getWorkersPerProcess`, `takes_getWorkers`, `takes_getLocalWorkers`,
  `takes_getWorkersExactProcess`, `takes_getTraverseWorkers` — the routines do that.
* `getWorkersPerProcess_ne_nil` and so on — when a routine finds what it is asked for.
-/

namespace FlexPS.Scheduler

open Lib

namespace AvailableWorkers

/-- The threads `selected`, given as `<pid, tid>`, were free and are taken from both views. -/
structure Takes (a : AvailableWorkers) (selected : List (ℕ × ℕ)) (a' : AvailableWorkers) : Prop where
  nodup : selected.Nodup
  free : ∀ p ∈ selected, p.2 ∈ a.tids p.1
  workers_nodup : a'.workers.Nodup
  tids_nodup : ∀ pid, (a'.tids pid).Nodup
  mem_workers : ∀ tid pid, (tid, pid) ∈ a'.workers ↔ (tid, pid) ∈ a.workers ∧ (pid, tid) ∉ selected
  mem_tids : ∀ pid tid, tid ∈ a'.tids pid ↔ tid ∈ a.tids pid ∧ (pid, tid) ∉ selected

variable {d : Draw} {a a₁ a₂ : AvailableWorkers} {selected selected₁ selected₂ : List (ℕ × ℕ)}

theorem Agree.takes_nil (h : a.Agree) : Takes a [] a where
  nodup := List.nodup_nil
  free _ := nofun
  workers_nodup := h.workers_nodup
  tids_nodup := h.tids_nodup
  mem_workers _ _ := by simp
  mem_tids _ _ := by simp

/-- What is left agrees. -/
theorem Takes.agree (h : Takes a selected a₁) (ha : a.Agree) : a₁.Agree where
  workers_nodup := h.workers_nodup
  tids_nodup := h.tids_nodup
  mem_iff tid pid := by rw [h.mem_workers, h.mem_tids, ha.mem_iff]

/-- Taking some, and then some more. -/
theorem Takes.trans (h₁ : Takes a selected₁ a₁) (h₂ : Takes a₁ selected₂ a₂) :
    Takes a (selected₁ ++ selected₂) a₂ where
  nodup := by
    refine h₁.nodup.append h₂.nodup fun p hp₁ hp₂ => ?_
    exact ((h₁.mem_tids p.1 p.2).mp (h₂.free p hp₂)).2 hp₁
  free p hp := by
    rcases List.mem_append.mp hp with hp | hp
    · exact h₁.free p hp
    · exact ((h₁.mem_tids p.1 p.2).mp (h₂.free p hp)).1
  workers_nodup := h₂.workers_nodup
  tids_nodup := h₂.tids_nodup
  mem_workers tid pid := by
    rw [h₂.mem_workers, h₁.mem_workers, List.mem_append, not_or, and_assoc]
  mem_tids pid tid := by rw [h₂.mem_tids, h₁.mem_tids, List.mem_append, not_or, and_assoc]

/-- The order in which threads are taken does not matter. -/
theorem Takes.perm (h : Takes a selected a₁) (hperm : selected₁.Perm selected) :
    Takes a selected₁ a₁ where
  nodup := hperm.nodup_iff.mpr h.nodup
  free p hp := h.free p (hperm.mem_iff.mp hp)
  workers_nodup := h.workers_nodup
  tids_nodup := h.tids_nodup
  mem_workers tid pid := by rw [h.mem_workers, hperm.mem_iff]
  mem_tids pid tid := by rw [h.mem_tids, hperm.mem_iff]

/-- The threads that a process loses. -/
theorem Takes.length_tids (h : Takes a selected a₁) (ha : a.Agree) (pid : ℕ) :
    (a₁.tids pid).length + (selected.filter fun p => p.1 = pid).length = (a.tids pid).length := by
  have hperm : (a₁.tids pid ++ (selected.filter fun p => p.1 = pid).map Prod.snd).Perm
      (a.tids pid) := by
    have hpids : ∀ tid, tid ∈ (selected.filter fun p => p.1 = pid).map Prod.snd ↔
        (pid, tid) ∈ selected := by
      intro tid
      simp only [List.mem_map, List.mem_filter, decide_eq_true_eq]
      constructor
      · rintro ⟨⟨pid', tid'⟩, ⟨hp, rfl⟩, rfl⟩
        exact hp
      · exact fun hp => ⟨_, ⟨hp, rfl⟩, rfl⟩
    have hnodup : ((selected.filter fun p => p.1 = pid).map Prod.snd).Nodup := by
      refine (h.nodup.filter _).map_on fun p hp q hq heq => ?_
      have hp' := of_decide_eq_true (List.mem_filter.mp hp).2
      have hq' := of_decide_eq_true (List.mem_filter.mp hq).2
      exact Prod.ext (hp'.trans hq'.symm) heq
    refine (List.perm_ext_iff_of_nodup ?_ (ha.tids_nodup pid)).mpr fun tid => ?_
    · refine (h.tids_nodup pid).append hnodup fun tid htid htid' => ?_
      exact ((h.mem_tids pid tid).mp htid).2 ((hpids tid).mp htid')
    · rw [List.mem_append, hpids, h.mem_tids]
      constructor
      · rintro (⟨htid, -⟩ | hp)
        · exact htid
        · exact h.free _ hp
      · intro htid
        by_cases hp : (pid, tid) ∈ selected
        · exact .inr hp
        · exact .inl ⟨htid, hp⟩
  have hlen := hperm.length_eq
  rwa [List.length_append, List.length_map] at hlen

/-! ## Erasing -/

theorem mem_eraseWorkers {workers : List (ℕ × ℕ)} (hnodup : workers.Nodup) (w : ℕ × ℕ) :
    (eraseWorkers workers selected).Nodup ∧
      (w ∈ eraseWorkers workers selected ↔ w ∈ workers ∧ (w.2, w.1) ∉ selected) := by
  unfold eraseWorkers
  induction selected generalizing workers with
  | nil => exact ⟨hnodup, by simp⟩
  | cons p selected ih =>
      obtain ⟨hnodup', hmem⟩ := ih (hnodup.erase (p.2, p.1))
      refine ⟨hnodup', ?_⟩
      rw [List.foldl_cons, hmem, hnodup.mem_erase_iff, List.mem_cons, not_or]
      have hswap : w ≠ (p.2, p.1) ↔ ¬ (w.2, w.1) = p := by
        refine not_congr ⟨?_, ?_⟩
        · rintro rfl
          rfl
        · rintro rfl
          rfl
      rw [hswap]
      tauto

theorem mem_erasePidTids {m : Dict ℕ (List ℕ)} (hnodup : ∀ pid, (m.getD pid []).Nodup)
    (pid tid : ℕ) : ((erasePidTids m selected).getD pid []).Nodup ∧
      (tid ∈ (erasePidTids m selected).getD pid [] ↔
        tid ∈ m.getD pid [] ∧ (pid, tid) ∉ selected) := by
  unfold erasePidTids
  induction selected generalizing m with
  | nil => exact ⟨hnodup pid, by simp⟩
  | cons p selected ih =>
      have hstep : ∀ pid', (m.set p.1 ((m.getD p.1 []).erase p.2)).getD pid' [] =
          if pid' = p.1 then (m.getD p.1 []).erase p.2 else m.getD pid' [] := by
        intro pid'
        by_cases h : pid' = p.1
        · subst h
          rw [Dict.getD_set_self, if_pos rfl]
        · rw [Dict.getD_set_of_ne _ h, if_neg h]
      obtain ⟨hnodup', hmem⟩ := ih (m := m.set p.1 ((m.getD p.1 []).erase p.2)) fun pid' => by
        rw [hstep]
        split
        · exact (hnodup p.1).erase _
        · exact hnodup pid'
      refine ⟨hnodup', ?_⟩
      rw [List.foldl_cons, hmem, hstep, List.mem_cons, not_or]
      by_cases hpid : pid = p.1
      · subst hpid
        rw [if_pos rfl, (hnodup p.1).mem_erase_iff]
        have hpair : tid ≠ p.2 ↔ ¬ (p.1, tid) = p := by
          refine not_congr ⟨?_, ?_⟩
          · rintro rfl
            rfl
          · intro h
            rw [← h]
        rw [hpair]
        tauto
      · have hne : ¬ (pid, tid) = p := by
          rintro rfl
          exact hpid rfl
        rw [if_neg hpid]
        tauto

/-- Erasing free threads from both views. -/
theorem Agree.takes_erase (h : a.Agree) (hnodup : selected.Nodup)
    (hfree : ∀ p ∈ selected, p.2 ∈ a.tids p.1) : Takes a selected (a.eraseSelected selected) where
  nodup := hnodup
  free := hfree
  workers_nodup := (mem_eraseWorkers h.workers_nodup (0, 0)).1
  tids_nodup pid := (mem_erasePidTids h.tids_nodup pid 0).1
  mem_workers tid pid := (mem_eraseWorkers h.workers_nodup (tid, pid)).2
  mem_tids pid tid := (mem_erasePidTids h.tids_nodup pid tid).2

/-! ## The routines -/

/-- `pid_tids_map` has the threads of `pid_tids_`. -/
theorem Agree.pidTidsMap_perm (h : a.Agree) (pid : ℕ) : (a.pidTidsMap d pid).Perm (a.tids pid) := by
  have hperm := d.workers_perm a.workers
  refine (List.perm_ext_iff_of_nodup ?_ (h.tids_nodup pid)).mpr fun tid => ?_
  · refine ((hperm.nodup_iff.mpr h.workers_nodup).filter _).map_on fun v hv w hw heq => ?_
    have hv' := of_decide_eq_true (List.mem_filter.mp hv).2
    have hw' := of_decide_eq_true (List.mem_filter.mp hw).2
    exact Prod.ext heq (hv'.trans hw'.symm)
  · rw [← h.mem_iff]
    simp only [pidTidsMap, List.mem_map, List.mem_filter, decide_eq_true_eq, hperm.mem_iff]
    constructor
    · rintro ⟨⟨tid', pid'⟩, ⟨hw, rfl⟩, rfl⟩
      exact hw
    · exact fun hw => ⟨_, ⟨hw, rfl⟩, rfl⟩

theorem Agree.length_pidTidsMap (h : a.Agree) (pid : ℕ) :
    (a.pidTidsMap d pid).length = (a.tids pid).length :=
  (h.pidTidsMap_perm pid).length_eq

/-- The first threads of a process. -/
theorem Agree.takes_first (h : a.Agree) (n pid : ℕ) :
    (((a.pidTidsMap d pid).take n).map fun tid => (pid, tid)).Nodup ∧
      ∀ p ∈ ((a.pidTidsMap d pid).take n).map fun tid => (pid, tid), p.1 = pid ∧ p.2 ∈ a.tids p.1 := by
  have hperm := h.pidTidsMap_perm (d := d) pid
  have hnodup := (hperm.nodup_iff.mpr (h.tids_nodup pid)).sublist (List.take_sublist n _)
  refine ⟨hnodup.map fun x y hxy => (Prod.mk.inj hxy).2, fun p hp => ?_⟩
  obtain ⟨tid, htid, rfl⟩ := List.mem_map.mp hp
  exact ⟨rfl, hperm.mem_iff.mp (List.mem_of_mem_take htid)⟩

theorem takes_getWorkersExactProcess (h : a.Agree) (n pid : ℕ) :
    Takes a (a.getWorkersExactProcess d n pid).1 (a.getWorkersExactProcess d n pid).2 := by
  unfold getWorkersExactProcess
  split
  · exact h.takes_nil
  · obtain ⟨hnodup, hfree⟩ := h.takes_first (d := d) n pid
    exact h.takes_erase hnodup fun p hp => (hfree p hp).2

/-- All or nothing, and from that process. -/
theorem getWorkersExactProcess_spec (h : a.Agree) (n pid : ℕ) :
    (a.getWorkersExactProcess d n pid).1.length = (if n ≤ (a.tids pid).length then n else 0) ∧
      ∀ p ∈ (a.getWorkersExactProcess d n pid).1, p.1 = pid := by
  have hlen := h.length_pidTidsMap (d := d) pid
  unfold getWorkersExactProcess
  split
  · next hlt =>
      rw [if_neg (by omega)]
      exact ⟨rfl, nofun⟩
  · next hge =>
      rw [if_pos (by omega)]
      refine ⟨?_, fun p hp => ((h.takes_first (d := d) n pid).2 p hp).1⟩
      rw [List.length_map, List.length_take]
      omega

theorem getWorkersExactProcess_ne_nil (h : a.Agree) (n pid : ℕ) :
    (a.getWorkersExactProcess d n pid).1 ≠ [] ↔ 0 < n ∧ n ≤ (a.tids pid).length := by
  rw [← List.length_pos_iff_ne_nil, (getWorkersExactProcess_spec h n pid).1]
  split
  · next hle => simp [hle]
  · next hlt => simp [hlt]

theorem takes_getWorkersPerProcess (h : a.Agree) (n numProcesses : ℕ) :
    Takes a (a.getWorkersPerProcess d n numProcesses).1
      (a.getWorkersPerProcess d n numProcesses).2 := by
  unfold getWorkersPerProcess
  split
  · exact h.takes_nil
  · refine h.takes_erase ?_ fun p hp => ?_
    · refine List.nodup_flatMap.mpr ⟨fun pid _ => (h.takes_first n pid).1, ?_⟩
      refine List.nodup_range.imp fun {pid pid'} hne p hp hp' => hne ?_
      exact ((h.takes_first n pid).2 p hp).1.symm.trans ((h.takes_first n pid').2 p hp').1
    · obtain ⟨pid, -, hp⟩ := List.mem_flatMap.mp hp
      exact ((h.takes_first n pid).2 p hp).2

theorem getWorkersPerProcess_ne_nil (h : a.Agree) (n numProcesses : ℕ) :
    (a.getWorkersPerProcess d n numProcesses).1 ≠ [] ↔
      0 < n ∧ 0 < numProcesses ∧ ∀ pid < numProcesses, n ≤ (a.tids pid).length := by
  have hlen := h.length_pidTidsMap (d := d)
  unfold getWorkersPerProcess
  split
  · next hfew =>
      obtain ⟨pid, hpid, hlt⟩ := hfew
      have := hlen pid
      refine ⟨fun hne => absurd rfl hne, fun ⟨_, _, hall⟩ => ?_⟩
      have := hall pid hpid
      omega
  · next henough =>
      have hall : ∀ pid < numProcesses, n ≤ (a.tids pid).length := by
        intro pid hpid
        have := hlen pid
        by_contra hlt
        exact henough ⟨pid, hpid, by omega⟩
      have hlength : ∀ pid < numProcesses, (((a.pidTidsMap d pid).take n).map fun tid =>
          (pid, tid)).length = n := by
        intro pid hpid
        have := hall pid hpid
        have := hlen pid
        rw [List.length_map, List.length_take]
        omega
      simp only [ne_eq, List.flatMap_eq_nil_iff, List.mem_range, not_forall]
      constructor
      · rintro ⟨pid, hpid, hne⟩
        have hpos := List.length_pos_iff_ne_nil.mpr hne
        rw [hlength pid hpid] at hpos
        exact ⟨hpos, Nat.zero_lt_of_lt hpid, hall⟩
      · rintro ⟨hn, hP, -⟩
        refine ⟨0, hP, fun hnil => ?_⟩
        have := hlength 0 hP
        rw [hnil] at this
        exact hn.ne this

/-- The part of a key, among parts whose keys are their positions. -/
theorem filter_flatMap_range {α : Type} {part : ℕ → List α} {key : α → ℕ}
    (hkey : ∀ i, ∀ x ∈ part i, key x = i) {m i : ℕ} (hi : i < m) :
    ((List.range m).flatMap part).filter (fun x => key x = i) = part i := by
  have hother : ∀ j, j ≠ i → (part j).filter (fun x => key x = i) = [] := by
    intro j hj
    refine List.filter_eq_nil_iff.mpr fun x hx => ?_
    rw [hkey j x hx, decide_eq_true_iff]
    exact hj
  induction m with
  | zero => exact absurd hi (Nat.not_lt_zero i)
  | succ m ih =>
      rw [List.range_succ, List.flatMap_append, List.filter_append, List.flatMap_singleton]
      rcases Nat.lt_succ_iff_lt_or_eq.mp hi with hlt | rfl
      · rw [ih hlt, hother m hlt.ne', List.append_nil]
      · have hbefore : ((List.range i).flatMap part).filter (fun x => key x = i) = [] := by
          refine List.filter_eq_nil_iff.mpr fun x hx => ?_
          obtain ⟨j, hj, hx⟩ := List.mem_flatMap.mp hx
          rw [hkey j x hx, decide_eq_true_iff]
          exact (List.mem_range.mp hj).ne
        have hown : (part i).filter (fun x => key x = i) = part i :=
          List.filter_eq_self.mpr fun x hx => decide_eq_true (hkey i x hx)
        rw [hbefore, hown, List.nil_append]

/-- Every process gives as many threads as are asked for, and no other process does. -/
theorem getWorkersPerProcess_spec (h : a.Agree) (n numProcesses : ℕ)
    (hne : (a.getWorkersPerProcess d n numProcesses).1 ≠ []) :
    (∀ p ∈ (a.getWorkersPerProcess d n numProcesses).1, p.1 < numProcesses) ∧
      ∀ pid < numProcesses,
        ((a.getWorkersPerProcess d n numProcesses).1.filter fun p => p.1 = pid).length = n := by
  obtain ⟨-, -, hall⟩ := (getWorkersPerProcess_ne_nil h n numProcesses).mp hne
  have hfirst := fun pid => (h.takes_first (d := d) n pid).2
  unfold getWorkersPerProcess at hne ⊢
  split at hne
  · exact absurd rfl hne
  · next henough =>
      rw [if_neg henough]
      refine ⟨fun p hp => ?_, fun pid hpid => ?_⟩
      · obtain ⟨pid, hpid, hp⟩ := List.mem_flatMap.mp hp
        rw [(hfirst pid p hp).1]
        exact List.mem_range.mp hpid
      · have hle := hall pid hpid
        rw [filter_flatMap_range (fun i x hx => (hfirst i x hx).1) hpid, List.length_map,
          List.length_take, h.length_pidTidsMap, min_eq_left hle]

/-- Random workers, each once. -/
theorem drawWorkers_spec {n : ℕ} {workers : List (ℕ × ℕ)} (hnodup : workers.Nodup)
    (hn : n ≤ workers.length) :
    (drawWorkers d n workers).1.length = n ∧ (drawWorkers d n workers).1.Nodup ∧
    (drawWorkers d n workers).2.Nodup ∧
    (∀ p ∈ (drawWorkers d n workers).1, (p.2, p.1) ∈ workers) ∧
    ∀ w, w ∈ (drawWorkers d n workers).2 ↔ w ∈ workers ∧ (w.2, w.1) ∉ (drawWorkers d n workers).1 := by
  induction n generalizing workers with
  | zero => exact ⟨rfl, List.nodup_nil, hnodup, nofun, fun w => by simp [drawWorkers]⟩
  | succ n ih =>
      have hperm := d.workers_perm workers
      have hindex : d.rand workers.length % workers.length < (d.workersOrder workers).length := by
        rw [hperm.length_eq]
        exact Nat.mod_lt _ (by omega)
      set w := (d.workersOrder workers)[d.rand workers.length % workers.length] with hw
      have hget : (d.workersOrder workers)[d.rand workers.length % workers.length]? = some w :=
        List.getElem?_eq_getElem hindex
      have hmem : w ∈ workers := hperm.mem_iff.mp (List.getElem_mem hindex)
      have hlen : (workers.erase w).length = workers.length - 1 := List.length_erase_of_mem hmem
      obtain ⟨hcount, hsel, hrest, hfree, hleft⟩ := ih (hnodup.erase w) (by omega)
      simp only [drawWorkers, hget]
      refine ⟨by rw [List.length_cons, hcount], List.nodup_cons.mpr ⟨fun hdrawn => ?_, hsel⟩, hrest,
        fun p hp => ?_, fun v => ?_⟩
      · exact ((hnodup.mem_erase_iff).mp (hfree _ hdrawn)).1 rfl
      · rcases List.mem_cons.mp hp with rfl | hp
        · exact hmem
        · exact List.mem_of_mem_erase (hfree p hp)
      · have hswap : v ≠ w ↔ ¬ (v.2, v.1) = (w.2, w.1) := by
          rw [Prod.mk.injEq, ne_eq, Prod.ext_iff, and_comm]
        rw [hleft, hnodup.mem_erase_iff, List.mem_cons, not_or, hswap]
        tauto

theorem takes_getWorkers (h : a.Agree) (n : ℕ) :
    Takes a (a.getWorkers d n).1 (a.getWorkers d n).2 := by
  unfold getWorkers
  split
  · exact h.takes_nil
  · next hn =>
      obtain ⟨-, hsel, hrest, hfree, hleft⟩ :=
        drawWorkers_spec (d := d) h.workers_nodup (not_lt.mp hn)
      have hperm := List.perm_insertionSort pairLe (drawWorkers d n a.workers).1
      refine ⟨hperm.nodup_iff.mpr hsel, fun p hp => ?_, hrest,
        fun pid => (mem_erasePidTids h.tids_nodup pid 0).1, fun tid pid => ?_,
        fun pid tid => (mem_erasePidTids h.tids_nodup pid tid).2⟩
      · exact (h.mem_iff p.2 p.1).mp (hfree p (hperm.mem_iff.mp hp))
      · rw [hleft, hperm.mem_iff]

theorem getWorkers_ne_nil (h : a.Agree) (n : ℕ) :
    (a.getWorkers d n).1 ≠ [] ↔ 0 < n ∧ n ≤ a.workers.length := by
  unfold getWorkers
  split
  · next hlt => simp [hlt]
  · next hge =>
      have hlen := (drawWorkers_spec (d := d) h.workers_nodup (not_lt.mp hge)).1
      rw [← List.length_pos_iff_ne_nil, List.length_insertionSort, hlen]
      exact ⟨fun hpos => ⟨hpos, not_lt.mp hge⟩, fun hpos => hpos.1⟩

theorem takes_getLocalWorkers (h : a.Agree) (n : ℕ) :
    Takes a (a.getLocalWorkers d n).1 (a.getLocalWorkers d n).2 := by
  unfold getLocalWorkers
  split
  · exact h.takes_nil
  · next kv hfind =>
      obtain ⟨pid, l⟩ := kv
      have hentry : ⟨pid, l⟩ ∈ a.pidTids.entries :=
        (d.procs_perm _).mem_iff.mp (List.mem_of_find?_eq_some hfind)
      have hl : a.tids pid = l := Dict.getD_of_mem_entries hentry []
      have hperm := d.tids_perm l
      have hnodup : (d.tidsOrder l).Nodup := hperm.nodup_iff.mpr (hl ▸ h.tids_nodup pid)
      have hsel : ∀ pid' tid, (pid', tid) ∈ ((d.tidsOrder l).take n).map (fun tid => (pid, tid)) ↔
          pid' = pid ∧ tid ∈ (d.tidsOrder l).take n := by
        intro pid' tid
        simp only [List.mem_map, Prod.mk.injEq]
        constructor
        · rintro ⟨tid', htid, rfl, rfl⟩
          exact ⟨rfl, htid⟩
        · rintro ⟨rfl, htid⟩
          exact ⟨tid, htid, rfl, rfl⟩
      have htids : ∀ pid', (a.pidTids.set pid ((d.tidsOrder l).drop n)).getD pid' [] =
          if pid' = pid then (d.tidsOrder l).drop n else a.tids pid' := by
        intro pid'
        by_cases hpid : pid' = pid
        · rw [hpid, Dict.getD_set_self, if_pos rfl]
        · rw [Dict.getD_set_of_ne _ hpid, if_neg hpid, tids]
      refine ⟨(hnodup.sublist (List.take_sublist n _)).map fun x y hxy => (Prod.mk.inj hxy).2,
        fun p hp => ?_, (mem_eraseWorkers h.workers_nodup (0, 0)).1, fun pid' => ?_,
        fun tid pid' => (mem_eraseWorkers h.workers_nodup (tid, pid')).2, fun pid' tid => ?_⟩
      · obtain ⟨hpid, htid⟩ := (hsel p.1 p.2).mp hp
        rw [hpid, hl]
        exact hperm.mem_iff.mp (List.mem_of_mem_take htid)
      · rw [tids, htids]
        split
        · exact hnodup.sublist (List.drop_sublist n _)
        · exact h.tids_nodup pid'
      · rw [tids, htids, hsel]
        split
        · next hpid =>
            subst hpid
            rw [hl, ← hperm.mem_iff (a := tid)]
            constructor
            · intro htid
              refine ⟨List.mem_of_mem_drop htid, fun htake => ?_⟩
              rw [← List.take_append_drop n (d.tidsOrder l)] at hnodup
              exact (List.nodup_append.mp hnodup).2.2 tid htake.2 tid htid rfl
            · rintro ⟨htid, hnot⟩
              rw [← List.take_append_drop n (d.tidsOrder l), List.mem_append] at htid
              exact htid.resolve_left fun htake => hnot ⟨rfl, htake⟩
        · next hpid =>
            exact ⟨fun htid => ⟨htid, fun hand => hpid hand.1⟩, fun hand => hand.1⟩

theorem getLocalWorkers_ne_nil (n : ℕ) :
    (a.getLocalWorkers d n).1 ≠ [] ↔ 0 < n ∧ ∃ pid, n ≤ (a.tids pid).length := by
  unfold getLocalWorkers
  split
  · next hnone =>
      refine ⟨fun hne => absurd rfl hne, fun ⟨hn, pid, hle⟩ => ?_⟩
      have hne : a.tids pid ≠ [] := List.length_pos_iff_ne_nil.mp (hn.trans_le hle)
      have hentry := Dict.mem_entries_of_getD (d := a.pidTids) (k := pid) rfl hne
      have := List.find?_eq_none.mp hnone _ ((d.procs_perm _).mem_iff.mpr hentry)
      exact absurd (decide_eq_true hle) this
  · next kv hfind =>
      obtain ⟨pid, l⟩ := kv
      have hle : n ≤ l.length := by simpa using List.find?_some hfind
      have hentry : ⟨pid, l⟩ ∈ a.pidTids.entries :=
        (d.procs_perm _).mem_iff.mp (List.mem_of_find?_eq_some hfind)
      have hl : a.tids pid = l := Dict.getD_of_mem_entries hentry []
      have hlen := (d.tids_perm l).length_eq
      rw [← List.length_pos_iff_ne_nil, List.length_map, List.length_take, hlen, min_eq_left hle]
      exact ⟨fun hn => ⟨hn, pid, hl ▸ hle⟩, fun hn => hn.1⟩

theorem takes_getWorkersOfFirst (h : a.Agree) (n : ℕ) (pids : List ℕ) :
    Takes a (a.getWorkersOfFirst d n pids).1 (a.getWorkersOfFirst d n pids).2 := by
  induction pids with
  | nil => exact h.takes_nil
  | cons pid pids ih =>
      simp only [getWorkersOfFirst]
      split
      · exact ih
      · exact takes_getWorkersExactProcess h n pid

/-- Some of the processes has enough, and the threads come from one of them. -/
theorem getWorkersOfFirst_spec (h : a.Agree) (n : ℕ) (pids : List ℕ) :
    ((a.getWorkersOfFirst d n pids).1 ≠ [] ↔ 0 < n ∧ ∃ pid ∈ pids, n ≤ (a.tids pid).length) ∧
    ((a.getWorkersOfFirst d n pids).1 = [] ∨ (a.getWorkersOfFirst d n pids).1.length = n) ∧
    ∀ p ∈ (a.getWorkersOfFirst d n pids).1, p.1 ∈ pids := by
  induction pids with
  | nil => simp [getWorkersOfFirst]
  | cons pid pids ih =>
      have hne := getWorkersExactProcess_ne_nil (d := d) h n pid
      obtain ⟨hlen, hpid⟩ := getWorkersExactProcess_spec (d := d) h n pid
      simp only [getWorkersOfFirst]
      split
      · next hnil =>
          obtain ⟨hiff, hall, hmem⟩ := ih
          refine ⟨hiff.trans ?_, hall, fun p hp => List.mem_cons_of_mem _ (hmem p hp)⟩
          simp only [List.mem_cons, exists_eq_or_imp]
          refine and_congr_right fun hn => ⟨.inr, fun hor => hor.resolve_left fun hle => ?_⟩
          exact hne.mpr ⟨hn, hle⟩ hnil
      · next hsome =>
          obtain ⟨hn, hle⟩ := hne.mp hsome
          rw [if_pos hle] at hlen
          refine ⟨⟨fun _ => ⟨hn, pid, List.mem_cons_self .., hle⟩, fun _ => hsome⟩, .inr hlen,
            fun p hp => ?_⟩
          rw [hpid p hp]
          exact List.mem_cons_self ..

/-- The first of the processes that has enough gives all threads, or nothing is taken. -/
theorem getWorkersOfFirst_cases (n : ℕ) (pids : List ℕ) :
    a.getWorkersOfFirst d n pids = ([], a) ∨
      ∃ pid ∈ pids, a.getWorkersOfFirst d n pids = a.getWorkersExactProcess d n pid ∧
        (a.getWorkersExactProcess d n pid).1 ≠ [] := by
  induction pids with
  | nil => exact .inl rfl
  | cons pid pids ih =>
      simp only [getWorkersOfFirst]
      split
      · refine ih.imp_right ?_
        rintro ⟨pid', hpid', heq⟩
        exact ⟨pid', List.mem_cons_of_mem _ hpid', heq⟩
      · next hne => exact .inr ⟨pid, List.mem_cons_self .., rfl, hne⟩

theorem takes_getTraverseWorkers (h : a.Agree) (taskHistory : List ℕ) (n : ℕ) :
    Takes a (a.getTraverseWorkers d taskHistory n).1 (a.getTraverseWorkers d taskHistory n).2 :=
  takes_getWorkersOfFirst h n _

end AvailableWorkers

end FlexPS.Scheduler
