import Mathlib.Data.List.Perm.Basic
import Mathlib.Tactic.Common

/-!
# Strides

The positions of a list are dealt out to `n` takers: the `t`-th one takes every `n`-th entry,
beginning at position `t`.  Taking one entry after another is the same as keeping the positions that
leave the remainder `t`, and the takers together take every entry once.

## Main definitions

* `stride n t xs i` — what the `t`-th taker has still to take from position `i` on.
* `stride_cons`, `stride_of_le`, `stride_start` — taking one entry after another.
* `perm_flatMap_filter` — the takers together.
-/

namespace FlexPS.Lib

variable {α : Type} {n t : ℕ} {xs : List α}

/-- The entries from position `i` on whose position leaves the remainder `t`, with their
positions. -/
def stride (n t : ℕ) (xs : List α) (i : ℕ) : List (α × ℕ) :=
  (xs.zipIdx.drop i).filter fun p => p.2 % n = t

theorem drop_zipIdx_cons {i : ℕ} (hi : i < xs.length) :
    xs.zipIdx.drop i = (xs[i], i) :: xs.zipIdx.drop (i + 1) := by
  have hlength : i < xs.zipIdx.length := by rwa [List.length_zipIdx]
  rw [List.drop_eq_getElem_cons hlength, List.getElem_zipIdx, Nat.zero_add]

/-- Nothing is left past the end. -/
theorem stride_of_le {i : ℕ} (hi : xs.length ≤ i) : stride n t xs i = [] := by
  have hdrop : xs.zipIdx.drop i = [] := List.drop_of_length_le (by rwa [List.length_zipIdx])
  rw [stride, hdrop, List.filter_nil]

/-- A position that belongs to another taker. -/
theorem stride_succ {i : ℕ} (hne : i % n ≠ t) : stride n t xs i = stride n t xs (i + 1) := by
  rcases Nat.lt_or_ge i xs.length with hi | hi
  · rw [stride, drop_zipIdx_cons hi, List.filter_cons_of_neg (by simpa using hne), stride]
  · rw [stride_of_le hi, stride_of_le (Nat.le_succ_of_le hi)]

/-- Positions that belong to other takers. -/
theorem stride_skip {i : ℕ} (k : ℕ) (hne : ∀ j < k, (i + j) % n ≠ t) :
    stride n t xs i = stride n t xs (i + k) := by
  induction k with
  | zero => rfl
  | succ k ih =>
      rw [ih fun j hj => hne j (Nat.lt_succ_of_lt hj), stride_succ (hne k (Nat.lt_succ_self k))]
      rfl

/-- **Taking an entry** at the taker's position. -/
theorem stride_cons {i : ℕ} (hi : i < xs.length) (hmod : i % n = t) (hn : 0 < n) :
    stride n t xs i = (xs[i], i) :: stride n t xs (i + n) := by
  have hskip : stride n t xs (i + 1) = stride n t xs (i + 1 + (n - 1)) := by
    refine stride_skip (n - 1) fun j hj heq => ?_
    have hmod' : (i + (j + 1)) % n = i % n := by
      rw [← Nat.add_assoc, Nat.add_right_comm, heq, hmod]
    have hdvd : n ∣ j + 1 := by
      have hsub := Nat.sub_mod_eq_zero_of_mod_eq hmod'
      rw [Nat.add_sub_cancel_left] at hsub
      exact Nat.dvd_of_mod_eq_zero hsub
    have hle := Nat.le_of_dvd (Nat.succ_pos j) hdvd
    omega
  have hnext : i + 1 + (n - 1) = i + n := by omega
  rw [hnext] at hskip
  rw [← hskip, stride, drop_zipIdx_cons hi, List.filter_cons_of_pos (by simpa using hmod), stride]

/-- The taker begins at its own position. -/
theorem stride_start (ht : t < n) : stride n t xs 0 = stride n t xs t := by
  have hskip : stride n t xs 0 = stride n t xs (0 + t) := by
    refine stride_skip t fun j hj => ?_
    rw [Nat.zero_add, Nat.mod_eq_of_lt (Nat.lt_trans hj ht)]
    exact Nat.ne_of_lt hj
  rwa [Nat.zero_add] at hskip

/-- **The takers together** take every entry once. -/
theorem perm_flatMap_filter (f : α → ℕ) (xs : List α) (m : ℕ) :
    ((List.range m).flatMap fun t => xs.filter fun x => f x = t).Perm
      (xs.filter fun x => f x < m) := by
  induction m with
  | zero =>
      rw [List.range_zero, List.flatMap_nil]
      simp
  | succ m ih =>
      have hsplit := List.filter_append_perm (fun x => decide (f x < m))
        (xs.filter fun x => f x < m + 1)
      have hlow : (xs.filter fun x => f x < m + 1).filter (fun x => decide (f x < m)) =
          xs.filter fun x => f x < m := by
        rw [List.filter_filter]
        refine List.filter_congr fun x _ => ?_
        rw [← Bool.decide_and, decide_eq_decide]
        omega
      have hlast : (xs.filter fun x => f x < m + 1).filter (fun x => !decide (f x < m)) =
          xs.filter fun x => f x = m := by
        rw [List.filter_filter]
        refine List.filter_congr fun x _ => ?_
        rw [← decide_not, ← Bool.decide_and, decide_eq_decide]
        omega
      rw [hlow, hlast] at hsplit
      rw [List.range_succ, List.flatMap_append, List.flatMap_singleton]
      exact (ih.append_right _).trans hsplit

end FlexPS.Lib
