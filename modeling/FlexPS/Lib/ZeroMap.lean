import Mathlib.Data.Finset.Insert
import Mathlib.Algebra.BigOperators.Group.List.Basic

/-!
# Maps whose missing keys read as zero

A `std::unordered_map` of numbers that is read and updated with `operator[]`: a key that is
not there is added with the value zero.

## Main definitions

* `ZeroMap` — the keys that are there and the value of every key.
* `set`, `incr` — `m[k] = v` and `m[k] += v`, and `setAll`, `incrAll` for a list of them.
-/

namespace FlexPS.Lib

variable {κ α : Type} [DecidableEq κ]

/-- A map with a value for every key, zero for those that are not in it. -/
structure ZeroMap (κ α : Type) [DecidableEq κ] [Zero α] where
  dom : Finset κ
  get : κ → α
  get_of_notMem : ∀ k, k ∉ dom → get k = 0

namespace ZeroMap

section Zero

variable [Zero α]

/-- The empty map. -/
def empty : ZeroMap κ α := ⟨∅, fun _ => 0, fun _ _ => rfl⟩

@[simp] theorem dom_empty : (empty : ZeroMap κ α).dom = ∅ := rfl

@[ext] theorem ext {m m' : ZeroMap κ α} (hdom : m.dom = m'.dom) (hget : ∀ k, m.get k = m'.get k) :
    m = m' := by
  cases m
  cases m'
  obtain rfl : _ = _ := hdom
  congr
  funext k
  exact hget k

/-- `m[k] = v`. -/
def set (m : ZeroMap κ α) (k : κ) (v : α) : ZeroMap κ α where
  dom := insert k m.dom
  get := Function.update m.get k v
  get_of_notMem := by
    intro j hj
    rw [Finset.mem_insert, not_or] at hj
    rw [Function.update_of_ne hj.1]
    exact m.get_of_notMem j hj.2

@[simp] theorem dom_set (m : ZeroMap κ α) (k : κ) (v : α) : (m.set k v).dom = insert k m.dom := rfl

theorem get_set (m : ZeroMap κ α) (k : κ) (v : α) (j : κ) :
    (m.set k v).get j = if j = k then v else m.get j := by
  by_cases hj : j = k
  · subst hj
    simp [set]
  · simp [set, hj]

/-- Assign a value to every key of a list. -/
def setAll (m : ZeroMap κ α) (keys : List κ) (f : κ → α) : ZeroMap κ α :=
  keys.foldl (fun m k => m.set k (f k)) m

theorem mem_setAll {m : ZeroMap κ α} {keys : List κ} {f : κ → α} {j : κ} :
    j ∈ (m.setAll keys f).dom ↔ j ∈ keys ∨ j ∈ m.dom := by
  induction keys generalizing m with
  | nil => simp [setAll]
  | cons k keys ih =>
      rw [setAll, List.foldl_cons, ← setAll, ih, dom_set, Finset.mem_insert, List.mem_cons]
      tauto

theorem get_setAll (m : ZeroMap κ α) (keys : List κ) (f : κ → α) (j : κ) :
    (m.setAll keys f).get j = if j ∈ keys then f j else m.get j := by
  induction keys generalizing m with
  | nil => simp [setAll]
  | cons k keys ih =>
      rw [setAll, List.foldl_cons, ← setAll, ih, get_set]
      by_cases hkeys : j ∈ keys
      · simp [hkeys]
      · by_cases hk : j = k
        · subst hk
          simp
        · simp [hkeys, hk]

end Zero

section Add

variable [AddMonoid α]

/-- `m[k] += v`. -/
def incr (m : ZeroMap κ α) (k : κ) (v : α) : ZeroMap κ α := m.set k (m.get k + v)

/-- `m[k] += v` for every pair of a list. -/
def incrAll (m : ZeroMap κ α) (pairs : List (κ × α)) : ZeroMap κ α :=
  pairs.foldl (fun m p => m.incr p.1 p.2) m

theorem mem_incrAll {m : ZeroMap κ α} {pairs : List (κ × α)} {j : κ} :
    j ∈ (m.incrAll pairs).dom ↔ j ∈ pairs.map Prod.fst ∨ j ∈ m.dom := by
  induction pairs generalizing m with
  | nil => simp [incrAll]
  | cons p pairs ih =>
      rw [incrAll, List.foldl_cons, ← incrAll, ih, incr, dom_set, Finset.mem_insert, List.map_cons,
        List.mem_cons]
      tauto

/-- Every key gets the sum of what is added to it. -/
theorem get_incrAll (m : ZeroMap κ α) (pairs : List (κ × α)) (j : κ) :
    (m.incrAll pairs).get j =
      m.get j + ((pairs.filter fun p => p.1 = j).map Prod.snd).sum := by
  induction pairs generalizing m with
  | nil => simp [incrAll]
  | cons p pairs ih =>
      rw [incrAll, List.foldl_cons, ← incrAll, ih, incr, get_set]
      by_cases hj : j = p.1
      · subst hj
        simp [add_assoc]
      · rw [if_neg hj, List.filter_cons_of_neg (by simpa using Ne.symm hj)]

end Add

end ZeroMap

end FlexPS.Lib
