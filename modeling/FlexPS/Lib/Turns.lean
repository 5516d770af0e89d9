import Mathlib.Data.List.Rotate
import Mathlib.Tactic.Common

/-!
# Taking turns

The entries of a list take turns: the first one is taken and goes to the back.  A full round takes
every entry once and leaves the list as it was, so after any number of turns the entries have been
taken equally often, up to one.

## Main definitions

* `turns xs n` — the entries that are taken in `n` turns.
* `turns_add`, `turns_length` — turns after turns, and a full round.
* `count_turns` — how often an entry is taken.
-/

namespace FlexPS.Lib

variable {α β : Type} {xs : List α}

/-- The entries that are taken in `n` turns; the one that is taken goes to the back. -/
def turns : List α → ℕ → List α
  | _, 0 => []
  | [], _ + 1 => []
  | x :: xs, n + 1 => x :: turns (xs ++ [x]) n

@[simp] theorem turns_zero (xs : List α) : turns xs 0 = [] := by cases xs <;> rfl

theorem turns_cons (x : α) (xs : List α) (n : ℕ) :
    turns (x :: xs) (n + 1) = x :: turns (xs ++ [x]) n := rfl

theorem turns_map (f : α → β) (xs : List α) (n : ℕ) :
    (turns xs n).map f = turns (xs.map f) n := by
  induction n generalizing xs with
  | zero => simp
  | succ n ih =>
      cases xs with
      | nil => rfl
      | cons x xs => simp [turns_cons, ih]

/-- After some turns the list has been rotated. -/
theorem turns_add (xs : List α) (m n : ℕ) :
    turns xs (m + n) = turns xs m ++ turns (xs.rotate m) n := by
  induction m generalizing xs with
  | zero => simp
  | succ m ih =>
      cases xs with
      | nil =>
          rw [Nat.succ_add, List.rotate_nil]
          cases n <;> rfl
      | cons x xs =>
          rw [Nat.succ_add, turns_cons, turns_cons, ih, List.rotate_cons_succ, List.cons_append]

/-- Fewer turns than a round take the first entries. -/
theorem turns_of_le {n : ℕ} (hn : n ≤ xs.length) : turns xs n = xs.take n := by
  induction n generalizing xs with
  | zero => simp
  | succ n ih =>
      cases xs with
      | nil => exact absurd hn (Nat.not_succ_le_zero n)
      | cons x xs =>
          have hle : n ≤ xs.length := Nat.le_of_succ_le_succ hn
          rw [turns_cons, ih (by simp; omega), List.take_append_of_le_length hle,
            List.take_succ_cons]

/-- **A full round** takes every entry once. -/
theorem turns_length (xs : List α) : turns xs xs.length = xs := by
  rw [turns_of_le (Nat.le_refl _), List.take_length]

/-- A round, and what comes after it. -/
theorem turns_length_add (xs : List α) (n : ℕ) : turns xs (xs.length + n) = xs ++ turns xs n := by
  rw [turns_add, turns_length, List.rotate_length]

theorem length_turns (hne : xs ≠ []) (n : ℕ) : (turns xs n).length = n := by
  induction n generalizing xs with
  | zero => simp
  | succ n ih =>
      cases xs with
      | nil => exact absurd rfl hne
      | cons x xs => rw [turns_cons, List.length_cons, ih (by simp)]

/-- **How often an entry is taken**: once in every round, and perhaps once more. -/
theorem count_turns [BEq α] [LawfulBEq α] (hnodup : xs.Nodup) {x : α} (hx : x ∈ xs) (n : ℕ) :
    (turns xs n).count x = n / xs.length + (xs.take (n % xs.length)).count x := by
  have hpos : 0 < xs.length := List.length_pos_of_mem hx
  induction n using Nat.strongRecOn with
  | ind n ih =>
      rcases Nat.lt_or_ge n xs.length with hlt | hle
      · rw [turns_of_le hlt.le, Nat.div_eq_of_lt hlt, Nat.mod_eq_of_lt hlt, Nat.zero_add]
      · obtain ⟨m, rfl⟩ := Nat.exists_eq_add_of_le hle
        rw [turns_length_add, List.count_append, List.count_eq_one_of_mem hnodup hx,
          ih m (by omega), Nat.add_div_left _ hpos, Nat.add_mod_left]
        omega

/-- **The entries are taken equally often**, up to one. -/
theorem count_turns_le [BEq α] [LawfulBEq α] (hnodup : xs.Nodup) {x y : α} (hx : x ∈ xs) (hy : y ∈ xs)
    (n : ℕ) : (turns xs n).count x ≤ (turns xs n).count y + 1 := by
  have honce : (xs.take (n % xs.length)).count x ≤ 1 :=
    List.nodup_iff_count_le_one.mp (hnodup.sublist (List.take_sublist _ _)) x
  rw [count_turns hnodup hx, count_turns hnodup hy]
  omega

end FlexPS.Lib
