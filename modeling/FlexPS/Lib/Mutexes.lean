import FlexPS.Lib.Machine
import Mathlib.Logic.Function.Basic
import Mathlib.Data.List.Perm.Basic
import Mathlib.Data.List.Nodup

/-!
# Mutexes and who holds them

Threads take and release mutexes one at a time.  A history of such steps is lawful when a mutex is
taken only while nobody holds it and released only by the thread that holds it, so that in a lawful
history every take is followed by at most one release, by the same thread, before the next take.

## Main definitions

* `LockEvent`, `holders`, `Lawful` — takes and releases, who holds what after them, and the rules.
* `Lawful.count_taken` — every take has its own release, unless the mutex is still held.
* `MutexStep` — what one step of a thread does to the mutexes and to the list of those it holds.
* `Owned` — every mutex is held by exactly the thread that lists it, once.
* `MutexStep.owned`, `MutexStep.lawful` — the rules for steps.
-/

namespace FlexPS.Lib

variable {τ μ : Type}

/-- A thread takes or releases a mutex. -/
inductive LockEvent (τ μ : Type) where
  | taken (t : τ) (m : μ)
  | released (t : τ) (m : μ)
deriving DecidableEq

section Histories

variable [DecidableEq μ]

/-- Who holds each mutex after one more event. -/
def LockEvent.apply (e : LockEvent τ μ) (holder : μ → Option τ) : μ → Option τ :=
  match e with
  | taken t m => Function.update holder m (some t)
  | released _ m => Function.update holder m none

/-- Who holds each mutex after the events. -/
def holders (history : List (LockEvent τ μ)) : μ → Option τ :=
  history.foldl (fun holder e => e.apply holder) fun _ => none

@[simp] theorem holders_nil : holders ([] : List (LockEvent τ μ)) = fun _ => none := rfl

@[simp] theorem holders_snoc (history : List (LockEvent τ μ)) (e : LockEvent τ μ) :
    holders (history ++ [e]) = e.apply (holders history) := by
  rw [holders, List.foldl_append]
  rfl

/-- The event keeps to the rules: free mutexes are taken, and held ones released by their holder. -/
def LockEvent.Allowed (holder : μ → Option τ) : LockEvent τ μ → Prop
  | taken _ m => holder m = none
  | released t m => holder m = some t

/-- Every event keeps to the rules. -/
def Lawful (history : List (LockEvent τ μ)) : Prop :=
  Throughout (fun before e => e.Allowed (holders before)) history

theorem lawful_nil : Lawful ([] : List (LockEvent τ μ)) := throughout_nil _

theorem lawful_snoc {history : List (LockEvent τ μ)} {e : LockEvent τ μ} :
    Lawful (history ++ [e]) ↔ Lawful history ∧ e.Allowed (holders history) :=
  throughout_snoc

/-- **Every take has its own release**, unless the mutex is still held by the thread. -/
theorem Lawful.count_taken [DecidableEq τ] {history : List (LockEvent τ μ)} (h : Lawful history)
    (t : τ) (m : μ) :
    history.count (.taken t m) =
      history.count (.released t m) + if holders history m = some t then 1 else 0 := by
  induction history using List.reverseRecOn with
  | nil => simp
  | append_singleton history e ih =>
      obtain ⟨hbefore, he⟩ := lawful_snoc.mp h
      have ih := ih hbefore
      rw [List.count_append, List.count_append, holders_snoc, ih]
      cases e with
      | taken t' m' =>
          by_cases hm : m = m'
          · subst hm
            have hfree : holders history m = none := he
            by_cases ht : t' = t
            · subst ht
              simp [LockEvent.apply, hfree]
            · simp [LockEvent.apply, hfree, ht]
          · have hne : LockEvent.taken t' m' ≠ .taken t m := fun heq =>
              hm (LockEvent.taken.inj heq).2.symm
            simp [LockEvent.apply, Function.update_of_ne hm, hne]
      | released t' m' =>
          by_cases hm : m = m'
          · subst hm
            have hheld : holders history m = some t' := he
            by_cases ht : t' = t
            · subst ht
              simp [LockEvent.apply, hheld]
            · simp [LockEvent.apply, hheld, ht]
          · have hne : LockEvent.released t' m' ≠ .released t m := fun heq =>
              hm (LockEvent.released.inj heq).2.symm
            simp [LockEvent.apply, Function.update_of_ne hm, hne]

/-- What one step of thread `t` does to the mutexes and to those it holds. -/
inductive MutexStep (t : τ) (holder : μ → Option τ) (held : List μ) :
    (μ → Option τ) → List μ → List (LockEvent τ μ) → Prop
  | keep : MutexStep t holder held holder held []
  | take {m held'} (hfree : holder m = none) (hheld : held'.Perm (m :: held)) :
      MutexStep t holder held (Function.update holder m (some t)) held' [.taken t m]
  | release {m held'} (hheld : held.Perm (m :: held')) :
      MutexStep t holder held (Function.update holder m none) held' [.released t m]

/-- Every mutex is held by exactly the thread that lists it, and listed once. -/
structure Owned (holder : μ → Option τ) (held : τ → List μ) : Prop where
  mem : ∀ t m, holder m = some t ↔ m ∈ held t
  nodup : ∀ t, (held t).Nodup

omit [DecidableEq μ] in
theorem owned_free : Owned (fun _ => none : μ → Option τ) fun _ => [] where
  mem _ _ := by simp
  nodup _ := List.nodup_nil

section Steps

variable {t : τ} {holder holder' : μ → Option τ} {held held' : τ → List μ} {o : List (LockEvent τ μ)}

/-- **A step of one thread** keeps every mutex with the thread that lists it. -/
theorem MutexStep.owned (h : MutexStep t holder (held t) holder' (held' t) o)
    (hinv : Owned holder held) (hothers : ∀ t' ≠ t, held' t' = held t') :
    Owned holder' held' := by
  generalize hlist : held' t = list at h
  cases h with
  | keep =>
      have hsame : held' = held := by
        funext t'
        by_cases ht : t' = t
        · rw [ht, hlist]
        · exact hothers t' ht
      rwa [hsame]
  | @take m _ hfree hperm =>
      constructor
      · intro t' m'
        by_cases hm : m' = m
        · subst hm
          rw [Function.update_self]
          by_cases ht : t' = t
          · subst ht
            simp [hlist, hperm.mem_iff]
          · rw [hothers t' ht, ← hinv.mem, hfree]
            simp [Ne.symm ht]
        · rw [Function.update_of_ne hm, hinv.mem]
          by_cases ht : t' = t
          · subst ht
            simp [hlist, hperm.mem_iff, hm]
          · rw [hothers t' ht]
      · intro t'
        by_cases ht : t' = t
        · subst ht
          rw [hlist, hperm.nodup_iff, List.nodup_cons, ← hinv.mem, hfree]
          exact ⟨by simp, hinv.nodup t'⟩
        · rw [hothers t' ht]
          exact hinv.nodup t'
  | @release m _ hperm =>
      have hnodup := hperm.nodup_iff.mp (hinv.nodup t)
      have hheld : holder m = some t := (hinv.mem t m).mpr (hperm.mem_iff.mpr (List.mem_cons_self ..))
      constructor
      · intro t' m'
        by_cases hm : m' = m
        · subst hm
          rw [Function.update_self]
          by_cases ht : t' = t
          · subst ht
            simpa [hlist] using (List.nodup_cons.mp hnodup).1
          · rw [hothers t' ht, ← hinv.mem, hheld]
            simp [Ne.symm ht]
        · rw [Function.update_of_ne hm, hinv.mem]
          by_cases ht : t' = t
          · subst ht
            simp [hlist, hperm.mem_iff, hm]
          · rw [hothers t' ht]
      · intro t'
        by_cases ht : t' = t
        · subst ht
          rw [hlist]
          exact (List.nodup_cons.mp hnodup).2
        · rw [hothers t' ht]
          exact hinv.nodup t'

/-- A step keeps to the rules, and tells who holds what after it. -/
theorem MutexStep.lawful {history : List (LockEvent τ μ)} {list list' : List μ}
    (h : MutexStep t holder list holder' list' o) (hlaw : Lawful history)
    (hholders : holders history = holder) (hown : ∀ m ∈ list, holder m = some t) :
    Lawful (history ++ o) ∧ holders (history ++ o) = holder' := by
  subst hholders
  cases h with
  | keep => simpa using hlaw
  | take hfree => exact ⟨lawful_snoc.mpr ⟨hlaw, hfree⟩, holders_snoc _ _⟩
  | release hperm =>
      have hheld := hown _ (hperm.mem_iff.mpr (List.mem_cons_self ..))
      exact ⟨lawful_snoc.mpr ⟨hlaw, hheld⟩, holders_snoc _ _⟩

/-- A mutex that another thread holds stays with it. -/
theorem MutexStep.other {list list' : List μ} (h : MutexStep t holder list holder' list' o)
    (hown : ∀ m ∈ list, holder m = some t) {t' : τ} (ht : t' ≠ t) {m : μ}
    (hm : holder m = some t') : holder' m = some t' := by
  cases h with
  | keep => exact hm
  | @take m' _ hfree =>
      have hne : m ≠ m' := by
        rintro rfl
        rw [hfree] at hm
        cases hm
      rwa [Function.update_of_ne hne]
  | @release m' _ hperm =>
      have hne : m ≠ m' := by
        rintro rfl
        have hheld := hown m (hperm.mem_iff.mpr (List.mem_cons_self ..))
        exact ht (Option.some.inj (hm.symm.trans hheld))
      rwa [Function.update_of_ne hne]

end Steps

end Histories

end FlexPS.Lib
