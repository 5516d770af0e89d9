import FlexPS.Lib.Progress

/-!
# A barrier with two counters

The participants of a barrier count themselves in, wait until all have arrived, and count
themselves out; the last one to leave resets both counters, so that the barrier can be used again.
This works as long as nobody arrives again before the reset.

## Main definitions

* `Barrier`, `Barrier.arrive`, `Barrier.leave` — the counters and what is done to them.
* `Barrier.InGen` — the state of the counters in the generation `g`, given how often everybody has
  arrived and left.
* `InGen.arrive`, `InGen.leave` — what one step does to it.
-/

namespace FlexPS.Lib

/-- How many participants have arrived, and how many of them have left. -/
structure Barrier where
  num : ℕ
  num2 : ℕ
  deriving DecidableEq, Repr

namespace Barrier

/-- One more participant arrives. -/
def arrive (b : Barrier) : Barrier := { b with num := b.num + 1 }

/-- The next one to leave is the last one. -/
def lastToLeave (T : ℕ) (b : Barrier) : Bool := b.num2 + 1 == T

/-- One more participant leaves, and resets the counters when it is the last one. -/
def leave (T : ℕ) (b : Barrier) : Barrier :=
  if b.lastToLeave T then ⟨0, 0⟩ else { b with num2 := b.num2 + 1 }

/-- The barrier of `T` participants has been reset `g` times; participant `t` has arrived
`arrivals t` times and left `leaves t` times. -/
structure InGen (T g : ℕ) (arrivals leaves : ℕ → ℕ) (b : Barrier) : Prop where
  num_eq : b.num = past (Finset.range T) arrivals g
  num2_eq : b.num2 = past (Finset.range T) leaves g
  le_leaves : ∀ t < T, g ≤ leaves t
  leaves_le : ∀ t < T, leaves t ≤ arrivals t
  arrivals_le : ∀ t < T, arrivals t ≤ g + 1
  /-- Nobody leaves before all have arrived. -/
  full : ∀ t < T, g < leaves t → b.num = T
  num2_lt : b.num2 < T

variable {T g t : ℕ} {arrivals leaves : ℕ → ℕ} {b : Barrier}

theorem inGen_new (hT : 0 < T) : InGen T 0 (fun _ => 0) (fun _ => 0) ⟨0, 0⟩ where
  num_eq := (past_zero_of_forall fun _ _ => le_rfl).symm
  num2_eq := (past_zero_of_forall fun _ _ => le_rfl).symm
  le_leaves _ _ := le_rfl
  leaves_le _ _ := le_rfl
  arrivals_le _ _ := Nat.zero_le _
  full _ _ h := absurd h (lt_irrefl 0)
  num2_lt := hT

/-- The barrier is full when everybody has arrived. -/
theorem InGen.full_iff (h : InGen T g arrivals leaves b) :
    b.num = T ↔ ∀ t < T, arrivals t = g + 1 := by
  have hpast := past_eq_card_iff (W := Finset.range T) (n := arrivals) (c := g)
  rw [Finset.card_range] at hpast
  rw [h.num_eq, hpast]
  constructor
  · intro hall t ht
    have := hall t (Finset.mem_range.mpr ht)
    have := h.arrivals_le t ht
    omega
  · intro hall t ht
    have := hall t (Finset.mem_range.mp ht)
    omega

/-- Somebody has not left since the last reset. -/
theorem InGen.exists_leaves (h : InGen T g arrivals leaves b) : ∃ t < T, leaves t = g := by
  by_contra hnone
  push Not at hnone
  have hall : past (Finset.range T) leaves g = (Finset.range T).card := by
    rw [past_eq_card_iff]
    intro t ht
    have htT := Finset.mem_range.mp ht
    exact lt_of_le_of_ne (h.le_leaves t htT) (Ne.symm (hnone t htT))
  rw [← h.num2_eq, Finset.card_range] at hall
  exact h.num2_lt.ne hall

/-- **Who has left `r` times has met everybody `r` times.** -/
theorem InGen.met (h : InGen T g arrivals leaves b) (ht : t < T) {v : ℕ} (hv : v < T) :
    leaves t ≤ arrivals v := by
  have hle := h.leaves_le t ht
  have hmax := h.arrivals_le t ht
  rcases Nat.lt_or_ge g (leaves t) with hlt | hge
  · rw [h.full_iff.mp (h.full t ht hlt) v hv]
    omega
  · exact hge.trans ((h.le_leaves v hv).trans (h.leaves_le v hv))

/-- **A participant arrives** that has not arrived since the last reset. -/
theorem InGen.arrive (h : InGen T g arrivals leaves b) (ht : t < T) (hfirst : arrivals t = g) :
    InGen T g (advance arrivals t) leaves b.arrive ∧ b.num < T := by
  have hmem : t ∈ Finset.range T := Finset.mem_range.mpr ht
  have hnum : b.num < T := by
    have hle : past (Finset.range T) arrivals g ≤ (Finset.range T).card :=
      Finset.card_filter_le _ _
    rw [← h.num_eq, Finset.card_range] at hle
    refine lt_of_le_of_ne hle fun heq => ?_
    have := h.full_iff.mp heq t ht
    omega
  refine ⟨⟨?_, h.num2_eq, h.le_leaves, fun v hv => ?_, fun v hv => ?_, fun v hv hlt => ?_,
    h.num2_lt⟩, hnum⟩
  · rw [past_advance hmem, if_pos hfirst.symm, ← h.num_eq]
    rfl
  · exact (h.leaves_le v hv).trans (le_advance arrivals v t)
  · by_cases hvt : v = t
    · subst hvt
      rw [advance_self, hfirst]
    · rw [advance_of_ne _ hvt]
      exact h.arrivals_le v hv
  · exact absurd (h.full v hv hlt) hnum.ne

/-- **A participant leaves** after all have arrived.  The last one begins the next generation. -/
theorem InGen.leave (h : InGen T g arrivals leaves b) (ht : t < T) (hfirst : leaves t = g)
    (hfull : b.num = T) :
    (b.lastToLeave T = true ∧ (∀ v < T, advance leaves t v = g + 1) ∧
      InGen T (g + 1) arrivals (advance leaves t) (b.leave T)) ∨
    (b.lastToLeave T = false ∧ InGen T g arrivals (advance leaves t) (b.leave T)) := by
  have hmem : t ∈ Finset.range T := Finset.mem_range.mpr ht
  have hall := h.full_iff.mp hfull
  have hpast : past (Finset.range T) (advance leaves t) g = b.num2 + 1 := by
    rw [past_advance hmem, if_pos hfirst.symm, ← h.num2_eq]
  have hbound : ∀ v < T, g ≤ advance leaves t v ∧ advance leaves t v ≤ g + 1 := by
    intro v hv
    by_cases hvt : v = t
    · subst hvt
      rw [advance_self, hfirst]
      omega
    · rw [advance_of_ne _ hvt]
      have hle := h.leaves_le v hv
      rw [hall v hv] at hle
      exact ⟨h.le_leaves v hv, hle⟩
  by_cases hlast : b.num2 + 1 = T
  · left
    have hthrough : ∀ v < T, advance leaves t v = g + 1 := by
      intro v hv
      have hcard : past (Finset.range T) (advance leaves t) g = (Finset.range T).card := by
        rw [hpast, hlast, Finset.card_range]
      have hlt := past_eq_card_iff.mp hcard v (Finset.mem_range.mpr hv)
      have := (hbound v hv).2
      omega
    have hleave : b.leave T = ⟨0, 0⟩ := if_pos (by simpa [lastToLeave] using hlast)
    refine ⟨by simpa [lastToLeave] using hlast, hthrough, ?_⟩
    rw [hleave]
    refine ⟨?_, ?_, fun v hv => (hthrough v hv).ge, fun v hv => ?_, fun v hv => ?_,
      fun v hv hlt => ?_, Nat.zero_lt_of_lt ht⟩
    · exact (past_zero_of_forall fun v hv => (hall v (Finset.mem_range.mp hv)).le).symm
    · exact (past_zero_of_forall fun v hv => (hthrough v (Finset.mem_range.mp hv)).le).symm
    · rw [hthrough v hv, hall v hv]
    · rw [hall v hv]
      exact Nat.le_succ _
    · rw [hthrough v hv] at hlt
      exact absurd hlt (lt_irrefl _)
  · right
    have hleave : b.leave T = { b with num2 := b.num2 + 1 } :=
      if_neg (by simpa [lastToLeave] using hlast)
    refine ⟨by simpa [lastToLeave] using hlast, ?_⟩
    rw [hleave]
    refine ⟨h.num_eq, hpast.symm, fun v hv => (hbound v hv).1, fun v hv => ?_, h.arrivals_le,
      fun _ _ _ => hfull, lt_of_le_of_ne h.num2_lt hlast⟩
    rw [hall v hv]
    exact (hbound v hv).2

end Barrier

end FlexPS.Lib
