import FlexPS.Lib.Cut

/-!
# Binary search for a bound

`std::lower_bound` halves a range until it is empty.  On a list whose entries below the bound come
first it finds how many there are; on any other list it finds some position.

## Main definitions

* `lowerBoundFrom`, `lowerBound` — the loop, and the search in a list.
* `lowerBound_eq_below` — what is found where the entries below the bound come first.
-/

namespace FlexPS.Lib

variable {α : Type}

/-- The loop of `std::lower_bound` over the `len` positions from `first` on.  Every round leaves
fewer positions, so that `len` rounds are enough. -/
def lowerBoundFrom (less : ℕ → Bool) : ℕ → ℕ → ℕ → ℕ
  | 0, first, _ => first
  | fuel + 1, first, len =>
      if len = 0 then first
      else if less (first + len / 2) then
        lowerBoundFrom less fuel (first + len / 2 + 1) (len - len / 2 - 1)
      else lowerBoundFrom less fuel first (len / 2)

/-- `std::lower_bound` on a list whose entries are compared by `f`. -/
def lowerBound (f : α → ℕ) (xs : List α) (b : ℕ) : ℕ :=
  lowerBoundFrom (fun i => xs[i]?.any fun x => f x < b) xs.length 0 xs.length

theorem lowerBoundFrom_le (less : ℕ → Bool) (fuel first len : ℕ) :
    lowerBoundFrom less fuel first len ≤ first + len := by
  fun_induction lowerBoundFrom less fuel first len with
  | case1 first len => exact Nat.le_add_right _ _
  | case2 fuel first => exact Nat.le_refl _
  | case3 fuel first len hlen hless ih => omega
  | case4 fuel first len hlen hless ih => omega

/-- Where the positions that are less come first, the loop finds the first that is not. -/
theorem lowerBoundFrom_eq {less : ℕ → Bool} {fuel first len m : ℕ} (hfuel : len ≤ fuel)
    (hfirst : first ≤ m) (hlast : m ≤ first + len)
    (hsplit : ∀ i, first ≤ i → i < first + len → (less i = true ↔ i < m)) :
    lowerBoundFrom less fuel first len = m := by
  fun_induction lowerBoundFrom less fuel first len with
  | case1 first len => omega
  | case2 fuel first => omega
  | case3 fuel first len hlen hless ih =>
      have hmiddle := (hsplit (first + len / 2) (by omega) (by omega)).mp hless
      exact ih (by omega) (by omega) (by omega) fun i _ _ => hsplit i (by omega) (by omega)
  | case4 fuel first len hlen hless ih =>
      have hmiddle := mt (hsplit (first + len / 2) (by omega) (by omega)).mpr hless
      exact ih (by omega) hfirst (by omega) fun i _ _ => hsplit i (by omega) (by omega)

variable {f : α → ℕ}

theorem lowerBound_le_length (xs : List α) (b : ℕ) : lowerBound f xs b ≤ xs.length := by
  have hle := lowerBoundFrom_le (fun i => xs[i]?.any fun x => f x < b) xs.length 0 xs.length
  rwa [Nat.zero_add] at hle

/-- The positions before the bound, where the entries below the bound come first. -/
theorem lt_below_iff {xs : List α} {b : ℕ} (hsplit : xs.Pairwise fun x y => f y < b → f x < b)
    {i : ℕ} {x : α} (hx : xs[i]? = some x) : i < below f xs b ↔ f x < b := by
  induction xs generalizing i with
  | nil => simp at hx
  | cons y xs ih =>
      obtain ⟨hy, hrest⟩ := List.pairwise_cons.mp hsplit
      rw [below_cons]
      cases i with
      | zero =>
          obtain rfl : y = x := by simpa using hx
          by_cases hlt : f y < b
          · simp [hlt]
          · simp [hlt]
      | succ i =>
          have hx' : xs[i]? = some x := by simpa using hx
          by_cases hlt : f y < b
          · rw [if_pos hlt, ← ih hrest hx', Nat.succ_lt_succ_iff]
          · have hnot := mt (hy x (List.mem_of_getElem? hx')) hlt
            simp [hlt, hnot]

/-- **Where the entries below the bound come first, the search finds how many there are.** -/
theorem lowerBound_eq_below {xs : List α} {b : ℕ}
    (hsplit : xs.Pairwise fun x y => f y < b → f x < b) : lowerBound f xs b = below f xs b := by
  apply lowerBoundFrom_eq (Nat.le_refl _) (Nat.zero_le _)
  · simpa using below_le_length xs b
  · intro i _ hi
    obtain ⟨x, hx⟩ : ∃ x, xs[i]? = some x := ⟨_, List.getElem?_eq_getElem (by omega)⟩
    rw [lt_below_iff hsplit hx, hx]
    simp

/-- Sorted entries below a bound come first. -/
theorem split_of_sorted {xs : List α} (hsorted : xs.Pairwise fun x y => f x ≤ f y) (b : ℕ) :
    xs.Pairwise fun x y => f y < b → f x < b :=
  hsorted.imp fun hle hlt => hle.trans_lt hlt

end FlexPS.Lib
