import Mathlib.Data.List.Basic
import Mathlib.Tactic.Common

/-!
# Growable vectors

A counter vector that is resized on demand before it is written: the pattern
`if (i >= v.size()) v.resize(i + 1); v[i] = f(v[i]);`.  A vector is a list, its
default-initialised tail is implicit, and every fact about it is a fact about
`slot v i`, the entry at `i` or the default value past the end.

## Main definitions

* `slot v i` — the entry at `i`, or the default past the end.
* `grow v n` — `v.resize(n)` where it only enlarges.
* `modifyAt v i f` — resize so that `i` is in range, then apply `f` to the entry.
* `clearAt v i` — reset the entry at `i` to the default.
-/

namespace FlexPS.Lib

variable {α : Type} [Inhabited α]

/-- The entry at `i`; entries past the end read as the default value. -/
def slot (v : List α) (i : ℕ) : α := v.getD i default

/-- Enlarge `v` to at least `n` entries, filling with the default value. -/
def grow (v : List α) (n : ℕ) : List α := v ++ List.replicate (n - v.length) default

/-- Resize so that `i` is in range and apply `f` to the entry at `i`. -/
def modifyAt (v : List α) (i : ℕ) (f : α → α) : List α := (grow v (i + 1)).modify i f

/-- Reset the entry at `i`; nothing happens past the end. -/
def clearAt (v : List α) (i : ℕ) : List α := v.set i default

@[simp] theorem slot_nil (i : ℕ) : slot ([] : List α) i = default := rfl

@[simp] theorem length_grow (v : List α) (n : ℕ) : (grow v n).length = max v.length n := by
  simp only [grow, List.length_append, List.length_replicate]
  omega

@[simp] theorem slot_grow (v : List α) (n i : ℕ) : slot (grow v n) i = slot v i := by
  simp only [slot, grow, List.getD_eq_getElem?_getD, List.getElem?_append]
  split
  · rfl
  · next h =>
      rw [List.getElem?_eq_none (l := v) (by omega), List.getElem?_replicate]
      split <;> rfl

@[simp] theorem length_modifyAt (v : List α) (i : ℕ) (f : α → α) :
    (modifyAt v i f).length = max v.length (i + 1) := by
  simp [modifyAt]

/-- A write changes the entry at its own index only. -/
theorem slot_modifyAt (v : List α) (i j : ℕ) (f : α → α) :
    slot (modifyAt v i f) j = if j = i then f (slot v i) else slot v j := by
  have hlen : i < (grow v (i + 1)).length := by rw [length_grow]; omega
  by_cases hj : j = i
  · subst hj
    have hget : (grow v (j + 1))[j]? = some (slot v j) := by
      rw [← slot_grow v (j + 1) j, slot, List.getD_eq_getElem?_getD,
        List.getElem?_eq_getElem hlen]
      rfl
    rw [if_pos rfl, modifyAt]
    nth_rewrite 1 [slot]
    rw [List.getD_eq_getElem?_getD, List.getElem?_modify_eq, hget]
    rfl
  · rw [if_neg hj, ← slot_grow v (i + 1) j]
    simp [modifyAt, slot, Ne.symm hj]

@[simp] theorem slot_clearAt (v : List α) (i j : ℕ) :
    slot (clearAt v i) j = if j = i then default else slot v j := by
  simp only [slot, clearAt, List.getD_eq_getElem?_getD, List.getElem?_set]
  by_cases hj : j = i
  · subst hj
    by_cases hlt : j < v.length <;> simp [hlt]
  · simp [hj, Ne.symm hj]

end FlexPS.Lib
