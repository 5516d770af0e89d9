import Mathlib.Data.List.Basic
import Mathlib.Order.Monotone.Basic
import Mathlib.Tactic.Common

/-!
# Cutting a sorted list at bounds

A list whose entries have increasing positions is cut at a sequence of bounds: the piece
between two bounds is the segment between the indices where the bounds are first reached.
The pieces are filters of the list, and together they are the list again.

## Main definitions

* `below f xs b` — how many entries come before the bound `b`.
* `segment xs i j` — the entries with index from `i` to `j`.
* `segment_below` — the segment between two bounds is a filter.
* `flatMap_between` — the pieces put together.
* `groups n xs` — the groups of `n` consecutive entries.
-/

namespace FlexPS.Lib

variable {α β : Type}

/-- How many entries come before the bound; `std::lower_bound` on a sorted range. -/
def below (f : α → ℕ) (xs : List α) (b : ℕ) : ℕ := (xs.takeWhile fun x => f x < b).length

/-- The entries with index from `i` up to, but not including, `j`. -/
def segment (xs : List α) (i j : ℕ) : List α := (xs.drop i).take (j - i)

/-- The entries between two bounds. -/
def between (f : α → ℕ) (lo hi : ℕ) (xs : List α) : List α :=
  xs.filter fun x => lo ≤ f x ∧ f x < hi

theorem mem_between {f : α → ℕ} {lo hi : ℕ} {xs : List α} {x : α} :
    x ∈ between f lo hi xs ↔ x ∈ xs ∧ lo ≤ f x ∧ f x < hi := by
  simp [between]

@[simp] theorem segment_self (xs : List α) (i : ℕ) : segment xs i i = [] := by
  simp [segment]

theorem length_segment {xs : List α} {i j : ℕ} (h : j ≤ xs.length) :
    (segment xs i j).length = j - i := by
  simp only [segment, List.length_take, List.length_drop]
  omega

/-- Two neighbouring segments put together. -/
theorem segment_append (xs : List α) {i j k : ℕ} (hij : i ≤ j) (hjk : j ≤ k) :
    segment xs i j ++ segment xs j k = segment xs i k := by
  have hsplit : k - i = (j - i) + (k - j) := by omega
  have hstart : i + (j - i) = j := by omega
  rw [segment, segment, segment, hsplit, List.take_add, List.drop_drop, hstart]

theorem segment_all {xs : List α} : segment xs 0 xs.length = xs := by
  simp [segment]

/-- The segments between the positions of an increasing sequence, put together. -/
theorem flatMap_segment (xs : List α) {p : ℕ → ℕ} (hp : Monotone p) (n : ℕ) :
    (List.range n).flatMap (fun i => segment xs (p i) (p (i + 1))) = segment xs (p 0) (p n) := by
  induction n with
  | zero => simp
  | succ n ih =>
      rw [List.range_succ, List.flatMap_append, ih, List.flatMap_cons, List.flatMap_nil,
        List.append_nil]
      exact segment_append xs (hp (Nat.zero_le n)) (hp (Nat.le_succ n))

/-- The entries of a list made up from the numbers below `n`. -/
theorem getElem?_map_range {f : ℕ → α} {n i : ℕ} {x : α} :
    ((List.range n).map f)[i]? = some x ↔ i < n ∧ x = f i := by
  rw [List.getElem?_eq_some_iff]
  constructor
  · rintro ⟨hi, rfl⟩
    refine ⟨by simpa using hi, ?_⟩
    rw [List.getElem_map, List.getElem_range]
  · rintro ⟨hi, rfl⟩
    refine ⟨by simpa using hi, ?_⟩
    rw [List.getElem_map, List.getElem_range]

theorem segment_isEmpty {xs : List α} {i j : ℕ} (hij : i ≤ j) (hj : j ≤ xs.length) :
    (!(segment xs i j).isEmpty) = (i != j) := by
  have hempty : (segment xs i j).isEmpty = true ↔ i = j := by
    rw [List.isEmpty_iff_length_eq_zero, length_segment hj]
    omega
  by_cases h : i = j
  · rw [hempty.mpr h, h]
    simp
  · rw [Bool.eq_false_iff.mpr fun htrue => h (hempty.mp htrue)]
    simp [h]

theorem segment_zip (xs : List α) (ys : List β) (i j : ℕ) :
    (segment xs i j).zip (segment ys i j) = segment (xs.zip ys) i j := by
  simp only [segment, List.zip_eq_zipWith, List.drop_zipWith, List.take_zipWith]

section Sorted

variable {f : α → ℕ}

@[simp] theorem below_nil (b : ℕ) : below f [] b = 0 := rfl

theorem below_cons (x : α) (xs : List α) (b : ℕ) :
    below f (x :: xs) b = if f x < b then below f xs b + 1 else 0 := by
  unfold below
  rw [List.takeWhile_cons]
  split
  · next h => simp [of_decide_eq_true h]
  · next h => simp [of_decide_eq_false (Bool.eq_false_iff.mpr h)]

theorem below_le_length (xs : List α) (b : ℕ) : below f xs b ≤ xs.length := by
  induction xs with
  | nil => exact le_rfl
  | cons x xs ih =>
      rw [below_cons, List.length_cons]
      split
      · omega
      · omega

theorem below_mono (xs : List α) : Monotone (below f xs) := by
  intro b c hbc
  induction xs with
  | nil => exact le_rfl
  | cons x xs ih =>
      rw [below_cons, below_cons]
      by_cases hx : f x < b
      · rw [if_pos hx, if_pos (lt_of_lt_of_le hx hbc)]
        omega
      · rw [if_neg hx]
        exact Nat.zero_le _

/-- A bound that every entry is below. -/
theorem below_eq_length {xs : List α} {b : ℕ} (h : ∀ x ∈ xs, f x < b) :
    below f xs b = xs.length := by
  induction xs with
  | nil => rfl
  | cons x xs ih =>
      rw [below_cons, if_pos (h x (by simp)), ih fun y hy => h y (by simp [hy]), List.length_cons]

/-- A bound that no entry is below. -/
theorem below_eq_zero {xs : List α} {b : ℕ} (h : ∀ x ∈ xs, b ≤ f x) : below f xs b = 0 := by
  cases xs with
  | nil => rfl
  | cons x xs => rw [below_cons, if_neg (by simpa using h x (by simp))]

theorem take_below {xs : List α} (hsorted : xs.Pairwise fun x y => f x ≤ f y) (b : ℕ) :
    xs.take (below f xs b) = xs.filter fun x => f x < b := by
  induction xs with
  | nil => rfl
  | cons x xs ih =>
      rw [List.pairwise_cons] at hsorted
      rw [below_cons]
      by_cases hx : f x < b
      · rw [if_pos hx, List.take_succ_cons, ih hsorted.2, List.filter_cons_of_pos (by simpa using hx)]
      · have hnone : ∀ y ∈ x :: xs, ¬ f y < b := by
          intro y hy
          rcases List.mem_cons.mp hy with rfl | hy
          · exact hx
          · have := hsorted.1 y hy
            omega
        rw [if_neg hx, List.take_zero, eq_comm, List.filter_eq_nil_iff]
        simpa using hnone

theorem drop_below {xs : List α} (hsorted : xs.Pairwise fun x y => f x ≤ f y) (b : ℕ) :
    xs.drop (below f xs b) = xs.filter fun x => b ≤ f x := by
  induction xs with
  | nil => rfl
  | cons x xs ih =>
      rw [List.pairwise_cons] at hsorted
      rw [below_cons]
      by_cases hx : f x < b
      · rw [if_pos hx, List.drop_succ_cons, ih hsorted.2,
          List.filter_cons_of_neg (by simpa using hx)]
      · have hall : ∀ y ∈ x :: xs, b ≤ f y := by
          intro y hy
          rcases List.mem_cons.mp hy with rfl | hy
          · omega
          · have := hsorted.1 y hy
            omega
        rw [if_neg hx, List.drop_zero, eq_comm, List.filter_eq_self]
        simpa using hall

/-- The rest after one bound, cut at the next. -/
theorem below_drop {xs : List α} {b c : ℕ} (h : b ≤ c) :
    below f (xs.drop (below f xs b)) c = below f xs c - below f xs b := by
  induction xs with
  | nil => rfl
  | cons x xs ih =>
      rw [below_cons x xs b]
      by_cases hx : f x < b
      · rw [if_pos hx, List.drop_succ_cons, ih, below_cons, if_pos (lt_of_lt_of_le hx h)]
        omega
      · rw [if_neg hx, List.drop_zero, Nat.sub_zero]

/-- **The segment between two bounds is a filter.** -/
theorem segment_below {xs : List α} (hsorted : xs.Pairwise fun x y => f x ≤ f y) {b c : ℕ}
    (h : b ≤ c) : segment xs (below f xs b) (below f xs c) = between f b c xs := by
  have hrest : (xs.drop (below f xs b)).Pairwise fun x y => f x ≤ f y :=
    hsorted.sublist (List.drop_sublist _ _)
  rw [segment, ← below_drop h, take_below hrest, drop_below hsorted, between, List.filter_filter]
  refine List.filter_congr fun x _ => ?_
  simp [Bool.and_comm]

/-- Positions of pairs are positions of their first components. -/
theorem below_zip {ys : List β} {xs : List α} (hlen : xs.length ≤ ys.length) (b : ℕ) :
    below (fun p : α × β => f p.1) (xs.zip ys) b = below f xs b := by
  induction xs generalizing ys with
  | nil => rfl
  | cons x xs ih =>
      cases ys with
      | nil => simp at hlen
      | cons y ys =>
          rw [List.zip_cons_cons, below_cons, below_cons, ih (by simpa using hlen)]

/-- A piece of a sorted list, paired with the segment of a second list at its position, is a
piece of the list of pairs. -/
theorem between_zip_segment {xs : List α} {ys : List β} (hlen : xs.length ≤ ys.length)
    (hsorted : xs.Pairwise fun x y => f x ≤ f y) {b c : ℕ} (h : b ≤ c) :
    (between f b c xs).zip (segment ys (below f xs b) (below f xs c)) =
      between (fun p : α × β => f p.1) b c (xs.zip ys) := by
  have hpairs : (xs.zip ys).Pairwise fun p q => f p.1 ≤ f q.1 := by
    rw [← List.map_fst_zip hlen, List.pairwise_map] at hsorted
    exact hsorted
  rw [← segment_below hsorted h, segment_zip, ← segment_below hpairs h, below_zip hlen,
    below_zip hlen]

/-- Two neighbouring pieces put together. -/
theorem between_append {xs : List α} (hsorted : xs.Pairwise fun x y => f x ≤ f y) {a b c : ℕ}
    (hab : a ≤ b) (hbc : b ≤ c) : between f a b xs ++ between f b c xs = between f a c xs := by
  rw [← segment_below hsorted hab, ← segment_below hsorted hbc,
    ← segment_below hsorted (hab.trans hbc)]
  exact segment_append xs (below_mono xs hab) (below_mono xs hbc)

/-- **The pieces between the bounds of an increasing sequence, put together.** -/
theorem flatMap_between {xs : List α} (hsorted : xs.Pairwise fun x y => f x ≤ f y) {b : ℕ → ℕ}
    (hb : Monotone b) (n : ℕ) :
    (List.range n).flatMap (fun i => between f (b i) (b (i + 1)) xs) =
      between f (b 0) (b n) xs := by
  induction n with
  | zero =>
      rw [List.range_zero, List.flatMap_nil, eq_comm, between, List.filter_eq_nil_iff]
      intro x _
      simp only [decide_eq_true_eq]
      omega
  | succ n ih =>
      rw [List.range_succ, List.flatMap_append, ih, List.flatMap_cons, List.flatMap_nil,
        List.append_nil]
      exact between_append hsorted (hb (Nat.zero_le n)) (hb (Nat.le_succ n))

end Sorted

/-! ## Groups of one length -/

/-- The groups of `n` consecutive entries; the last group may be shorter. -/
def groups (n : ℕ) (xs : List α) : List (List α) :=
  (List.range ((xs.length + (n - 1)) / n)).map fun i => segment xs (i * n) ((i + 1) * n)

@[simp] theorem groups_nil (n : ℕ) : groups n ([] : List α) = [] := by
  have hzero : (([] : List α).length + (n - 1)) / n = 0 := by
    rw [List.length_nil, Nat.zero_add, Nat.div_eq_zero_iff]
    omega
  rw [groups, hzero]
  rfl

/-- A full group comes first. -/
theorem groups_append {n : ℕ} (hn : 0 < n) {xs : List α} (hlength : xs.length = n) (ys : List α) :
    groups n (xs ++ ys) = xs :: groups n ys := by
  have hcount : ((xs ++ ys).length + (n - 1)) / n = (ys.length + (n - 1)) / n + 1 := by
    rw [List.length_append, hlength, Nat.add_assoc, Nat.add_div_left _ hn]
  rw [groups, hcount, List.range_succ_eq_map, List.map_cons, List.map_map]
  congr 1
  · rw [segment, Nat.zero_mul, List.drop_zero, Nat.zero_add, Nat.one_mul, Nat.sub_zero,
      List.take_left' hlength]
  · refine List.map_congr_left fun i _ => ?_
    have hdrop : (xs ++ ys).drop ((i + 1) * n) = ys.drop (i * n) := by
      rw [Nat.succ_mul, Nat.add_comm, ← List.drop_drop, List.drop_left' hlength]
    simp only [Function.comp_apply, segment, Nat.succ_eq_add_one, hdrop]
    congr 1
    rw [Nat.succ_mul (i + 1), Nat.succ_mul i]
    omega

/-- A group that is not full is the only one. -/
theorem groups_of_le {n : ℕ} {xs : List α} (hne : xs ≠ []) (hle : xs.length ≤ n) :
    groups n xs = [xs] := by
  have hpos := List.length_pos_iff.mpr hne
  have hone : (xs.length + (n - 1)) / n = 1 := Nat.div_eq_of_lt_le (by omega) (by omega)
  rw [groups, hone, List.range_one, List.map_singleton, segment, Nat.zero_mul, List.drop_zero,
    Nat.zero_add, Nat.one_mul, Nat.sub_zero, List.take_of_length_le hle]

end FlexPS.Lib
