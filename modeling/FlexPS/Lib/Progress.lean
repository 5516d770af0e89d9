import Mathlib.Algebra.BigOperators.Group.Finset.Piecewise
import Mathlib.Algebra.Group.Action.Defs
import Mathlib.Algebra.Order.BigOperators.Group.Finset
import Mathlib.Algebra.Order.Ring.Abs
import Mathlib.Data.Finset.Lattice.Fold
import Mathlib.Data.Finset.Prod
import Mathlib.Data.Finset.Union
import Mathlib.Data.List.Count
import Mathlib.Data.List.Induction
import Mathlib.Data.Nat.Count
import Mathlib.Order.Lattice.Nat
import Mathlib.Tactic.Common
import Mathlib.Tactic.Ring

/-!
# The slowest participant

A finite set of participants, each with a natural-number progress.  Two numbers
summarise it for a coordinator: how many participants are past a given level, and
the progress of the slowest one.  When one participant advances by one, the first
changes at a single level and the second grows by at most one, exactly when the
level count reaches the number of participants.

## Main definitions

* `past W n c` — how many participants of `W` have progress above `c`.
* `Slowest W n m` — `m` is the least progress in `W`.
* `advance n w` — participant `w` makes one more step.
* `arrived W n` — the steps made so far, as pairs of a participant and a number.
* `card_filter_count_le`, `exists_take_count` — counting the steps of one kind.
* `sum_le_sum_add` — the distance of two sums over the participants.
* `sum_add_le_of_ne`, `sum_length_filter_le` — sums that differ in one term, and the parts of a list.
-/

namespace FlexPS.Lib

variable {ι : Type}

/-- How many participants have progress above `c`. -/
def past (W : Finset ι) (n : ι → ℕ) (c : ℕ) : ℕ := (W.filter fun w => c < n w).card

/-- `m` is the progress of the slowest participant. -/
structure Slowest (W : Finset ι) (n : ι → ℕ) (m : ℕ) : Prop where
  le : ∀ w ∈ W, m ≤ n w
  attained : ∃ w ∈ W, n w = m

theorem past_eq_card_iff {W : Finset ι} {n : ι → ℕ} {c : ℕ} :
    past W n c = W.card ↔ ∀ w ∈ W, c < n w := by
  rw [past, Finset.card_filter_eq_iff]

theorem past_zero_of_forall {W : Finset ι} {n : ι → ℕ} {c : ℕ} (h : ∀ w ∈ W, n w ≤ c) :
    past W n c = 0 := by
  rw [past, Finset.card_eq_zero, Finset.filter_eq_empty_iff]
  intro w hw
  have := h w hw
  omega

theorem Slowest.unique {W : Finset ι} {n : ι → ℕ} {m m' : ℕ} (h : Slowest W n m)
    (h' : Slowest W n m') : m = m' := by
  obtain ⟨w, hw, hwm⟩ := h.attained
  obtain ⟨w', hw', hwm'⟩ := h'.attained
  have h₁ := h.le w' hw'
  have h₂ := h'.le w hw
  omega

theorem slowest_iff_inf' {W : Finset ι} {n : ι → ℕ} {m : ℕ} (hne : W.Nonempty) :
    Slowest W n m ↔ W.inf' hne n = m := by
  have hinf : Slowest W n (W.inf' hne n) := by
    refine ⟨fun w hw => Finset.inf'_le n hw, ?_⟩
    obtain ⟨w, hw, h⟩ := Finset.exists_mem_eq_inf' hne n
    exact ⟨w, hw, h.symm⟩
  constructor
  · intro h
    exact hinf.unique h
  · intro h
    exact h ▸ hinf

/-- Not everybody is past the slowest participant's level. -/
theorem Slowest.past_ne_card {W : Finset ι} {n : ι → ℕ} {m : ℕ} (h : Slowest W n m) :
    past W n m ≠ W.card := by
  intro hcard
  obtain ⟨w, hw, hwm⟩ := h.attained
  have := past_eq_card_iff.mp hcard w hw
  omega

section Advance

variable [DecidableEq ι]

/-- One participant makes one more step. -/
def advance (n : ι → ℕ) (w : ι) : ι → ℕ := fun v => if v = w then n w + 1 else n v

@[simp] theorem advance_self (n : ι → ℕ) (w : ι) : advance n w w = n w + 1 := by
  simp [advance]

theorem advance_of_ne (n : ι → ℕ) {v w : ι} (h : v ≠ w) : advance n w v = n v := by
  simp [advance, h]

theorem le_advance (n : ι → ℕ) (v w : ι) : n v ≤ advance n w v := by
  unfold advance
  split
  · next h => subst h; omega
  · exact le_rfl

/-- A step has been made after one more step. -/
theorem lt_advance_iff (n : ι → ℕ) (w : ι) (x : ι × ℕ) :
    x.2 < advance n w x.1 ↔ x.2 < n x.1 ∨ x = (w, n w) := by
  obtain ⟨v, i⟩ := x
  by_cases hv : v = w
  · subst hv
    simp only [advance_self, Prod.mk.injEq, true_and]
    omega
  · simp [advance_of_ne n hv, hv]

/-- One more entry of a schedule is one more step of its participant. -/
theorem count_snoc (sched : List ι) (w : ι) :
    (fun v => (sched ++ [w]).count v) = advance (fun v => sched.count v) w := by
  funext v
  by_cases hv : v = w
  · subst hv
    simp
  · rw [advance_of_ne _ hv, List.count_append, List.count_singleton]
    simp [Ne.symm hv]

/-- The steps made so far. -/
def arrived (W : Finset ι) (n : ι → ℕ) : Finset (ι × ℕ) :=
  W.biUnion fun w => {w} ×ˢ Finset.range (n w)

@[simp] theorem mem_arrived {W : Finset ι} {n : ι → ℕ} {x : ι × ℕ} :
    x ∈ arrived W n ↔ x.1 ∈ W ∧ x.2 < n x.1 := by
  simp only [arrived, Finset.mem_biUnion, Finset.mem_product, Finset.mem_singleton,
    Finset.mem_range]
  constructor
  · rintro ⟨w, hw, hx, hlt⟩
    rw [hx]
    exact ⟨hw, hlt⟩
  · rintro ⟨hw, hlt⟩
    exact ⟨x.1, hw, rfl, hlt⟩

/-- Advancing a participant changes the count at its old level only. -/
theorem past_advance {W : Finset ι} {n : ι → ℕ} {w : ι} (hw : w ∈ W) (c : ℕ) :
    past W (advance n w) c = if c = n w then past W n c + 1 else past W n c := by
  by_cases hc : c = n w
  · rw [if_pos hc]
    have hset : W.filter (fun v => c < advance n w v) = insert w (W.filter fun v => c < n v) := by
      ext v
      by_cases hv : v = w
      · subst hv
        simp [hw, hc]
      · simp [advance_of_ne n hv, hv]
    have hnot : w ∉ W.filter fun v => c < n v := by simp [hc]
    rw [past, hset, Finset.card_insert_of_notMem hnot, past]
  · rw [if_neg hc, past, past]
    congr 1
    refine Finset.filter_congr fun v _ => ?_
    by_cases hv : v = w
    · subst hv
      rw [advance_self]
      omega
    · rw [advance_of_ne n hv]

/-- The level rises when the last slow participant leaves it. -/
theorem Slowest.advance_of_past {W : Finset ι} {n : ι → ℕ} {m : ℕ} {w : ι}
    (h : Slowest W n m) (hw : w ∈ W) (hpast : past W (advance n w) m = W.card) :
    Slowest W (advance n w) (m + 1) ∧ n w = m := by
  have hall := past_eq_card_iff.mp hpast
  have hnw : n w = m := by
    obtain ⟨v, hv, hvm⟩ := h.attained
    by_contra hne
    have hvw : v ≠ w := by
      rintro rfl
      exact hne hvm
    have := hall v hv
    rw [advance_of_ne n hvw] at this
    omega
  exact ⟨⟨fun v hv => hall v hv, w, hw, by rw [advance_self, hnw]⟩, hnw⟩

/-- Otherwise the level stays. -/
theorem Slowest.advance_of_not_past {W : Finset ι} {n : ι → ℕ} {m : ℕ} {w : ι}
    (h : Slowest W n m) (hpast : past W (advance n w) m ≠ W.card) :
    Slowest W (advance n w) m := by
  refine ⟨fun v hv => (h.le v hv).trans (le_advance n v w), ?_⟩
  rw [Ne, past_eq_card_iff] at hpast
  push Not at hpast
  obtain ⟨v, hv, hle⟩ := hpast
  exact ⟨v, hv, le_antisymm hle ((h.le v hv).trans (le_advance n v w))⟩

/-- A participant ahead of the slowest level does not move it. -/
theorem Slowest.advance_of_lt {W : Finset ι} {n : ι → ℕ} {m : ℕ} {w : ι}
    (h : Slowest W n m) (hw : w ∈ W) (hlt : m < n w) : Slowest W (advance n w) m := by
  apply h.advance_of_not_past
  intro hpast
  have := (h.advance_of_past hw hpast).2
  omega

end Advance

/-! ## Counting -/

/-- Of the first `n` numbers, the `c + 1` first of `P`, if there are as many. -/
theorem card_filter_count_le (P : ℕ → Prop) [DecidablePred P] (n c : ℕ) :
    ((Finset.range n).filter fun i => P i ∧ Nat.count P i ≤ c).card =
      min (Nat.count P n) (c + 1) := by
  induction n with
  | zero => simp
  | succ n ih =>
      rw [Finset.range_add_one, Finset.filter_insert, Nat.count_succ]
      split
      · next h =>
          rw [Finset.card_insert_of_notMem (by simp), ih, if_pos h.1]
          omega
      · next h =>
          rw [ih]
          split
          · next hP =>
              have hlt : c < Nat.count P n := not_le.mp fun hle => h ⟨hP, hle⟩
              omega
          · omega

/-- A number of occurrences is reached somewhere in a list. -/
theorem exists_take_count {l : List ℕ} {w k : ℕ} (h : k < l.count w) :
    ∃ j, l[j]? = some w ∧ (l.take j).count w = k := by
  induction l using List.reverseRecOn with
  | nil => simp at h
  | append_singleton l v ih =>
      by_cases hk : k < l.count w
      · obtain ⟨j, hj, hcount⟩ := ih hk
        have hlt := (List.getElem?_eq_some_iff.mp hj).1
        exact ⟨j, by rwa [List.getElem?_append_left hlt], by rwa [List.take_append_of_le_length hlt.le]⟩
      · rw [List.count_append, List.count_singleton] at h
        have hv : v = w := by
          by_contra hne
          simp [hne] at h
          omega
        subst hv
        refine ⟨l.length, by simp, ?_⟩
        simp at h ⊢
        omega

/-- Sums whose terms lie between `p - s` and `p + s + 1`, and of which each has a term `p`, are
close. -/
theorem sum_le_sum_add [DecidableEq ι] {W : Finset ι} {f g : ι → ℕ} {p s : ℕ} {v v' : ι}
    (hv : v ∈ W) (hv' : v' ∈ W) (hfv : f v = p) (hgv : g v' = p) (hf : ∀ u ∈ W, f u ≤ p + s + 1)
    (hg : ∀ u ∈ W, p ≤ g u + s) :
    ∑ u ∈ W, f u ≤ ∑ u ∈ W, g u + (W.card - 1) * (2 * s + 1) := by
  have hupper : ∑ u ∈ W.erase v, f u ≤ (W.card - 1) * (p + s + 1) := by
    rw [← Finset.card_erase_of_mem hv, ← smul_eq_mul]
    exact Finset.sum_le_card_nsmul _ _ _ fun u hu => hf u (Finset.mem_of_mem_erase hu)
  have hlower : (W.card - 1) * p ≤ ∑ u ∈ W.erase v', g u + (W.card - 1) * s := by
    rw [← Finset.card_erase_of_mem hv', ← smul_eq_mul, ← smul_eq_mul, ← Finset.sum_const,
      ← Finset.sum_const, ← Finset.sum_add_distrib]
    exact Finset.sum_le_sum fun u hu => hg u (Finset.mem_of_mem_erase hu)
  rw [← Finset.add_sum_erase W f hv, ← Finset.add_sum_erase W g hv', hfv, hgv]
  calc
    p + ∑ u ∈ W.erase v, f u ≤ p + (W.card - 1) * (p + s + 1) := by omega
    _ = p + ((W.card - 1) * p + (W.card - 1) * (s + 1)) := by ring
    _ ≤ p + (∑ u ∈ W.erase v', g u + (W.card - 1) * s + (W.card - 1) * (s + 1)) := by omega
    _ = p + ∑ u ∈ W.erase v', g u + (W.card - 1) * (2 * s + 1) := by ring

/-- Two sums that differ in one term. -/
theorem sum_add_le_of_ne [DecidableEq ι] {W : Finset ι} {f g : ι → ℕ} {v : ι} {a b : ℕ} (hv : v ∈ W)
    (hle : f v + a ≤ g v + b) (hne : ∀ u, u ≠ v → f u = g u) :
    ∑ u ∈ W, f u + a ≤ ∑ u ∈ W, g u + b := by
  have hrest : ∑ u ∈ W.erase v, f u = ∑ u ∈ W.erase v, g u :=
    Finset.sum_congr rfl fun u hu => hne u (Finset.ne_of_mem_erase hu)
  rw [← Finset.add_sum_erase W f hv, ← Finset.add_sum_erase W g hv, hrest]
  omega

/-- The parts of a list are not longer than the list. -/
theorem sum_length_filter_le [DecidableEq ι] (W : Finset ι) {α : Type} (f : α → ι) (l : List α) :
    ∑ v ∈ W, (l.filter (f · = v)).length ≤ l.length := by
  induction l with
  | nil => simp
  | cons a l ih =>
      have hcons : ∀ v, ((a :: l).filter (f · = v)).length =
          (l.filter (f · = v)).length + if f a = v then 1 else 0 := by
        intro v
        rw [List.filter_cons]
        by_cases hv : f a = v
        · simp [hv]
        · simp [hv]
      have hone : (∑ v ∈ W, if f a = v then 1 else 0) ≤ 1 := by
        rw [Finset.sum_ite_eq]
        split
        · exact le_refl 1
        · exact Nat.zero_le 1
      rw [Finset.sum_congr rfl fun v _ => hcons v, Finset.sum_add_distrib, List.length_cons]
      exact Nat.add_le_add ih hone

end FlexPS.Lib
