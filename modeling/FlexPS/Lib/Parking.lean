import FlexPS.Lib.Growable
import Mathlib.Algebra.BigOperators.Group.Finset.Basic
import Mathlib.Data.List.Nodup

/-!
# Parking lots indexed by a clock

A vector of buffers: an item that may not be handled yet is parked at the clock
value that will release it, and the whole buffer of a clock value is released at
once.  `Lists l P f` says that a buffer holds exactly the items of `P`, each once, as
the entry `f` of the item; `Parks` says it of every buffer of the vector.

## Main definitions

* `Lists l P f` — the list holds the items of `P`, each exactly once.
* `park buf e b` — append the entry `b` to the buffer at clock `e`.
* `Parks buf P f` — the buffer at clock `e` lists the items of `P e`.
-/

namespace FlexPS.Lib

variable {ι β : Type}

/-- The list holds the items of `P` in some order, each exactly once. -/
def Lists (l : List β) (P : ι → Prop) (f : ι → β) : Prop :=
  ∃ items : List ι, items.Nodup ∧ (∀ i, i ∈ items ↔ P i) ∧ l = items.map f

theorem lists_nil {P : ι → Prop} {f : ι → β} (h : ∀ i, ¬ P i) : Lists [] P f :=
  ⟨[], List.nodup_nil, by simp [h], rfl⟩

theorem lists_singleton {P : ι → Prop} {f : ι → β} {x : ι} (h : ∀ i, P i ↔ i = x) :
    Lists [f x] P f :=
  ⟨[x], List.nodup_singleton x, by simp [h], rfl⟩

/-- Two lists of disjoint items list the items of either. -/
theorem Lists.append {l l' : List β} {P Q R : ι → Prop} {f : ι → β} (h : Lists l P f)
    (h' : Lists l' Q f) (hdisj : ∀ i, P i → ¬ Q i) (hR : ∀ i, R i ↔ P i ∨ Q i) :
    Lists (l ++ l') R f := by
  obtain ⟨items, hnodup, hmem, rfl⟩ := h
  obtain ⟨items', hnodup', hmem', rfl⟩ := h'
  refine ⟨items ++ items', ?_, ?_, by simp⟩
  · rw [List.nodup_append]
    refine ⟨hnodup, hnodup', ?_⟩
    rintro a ha b hb rfl
    exact hdisj a ((hmem a).mp ha) ((hmem' a).mp hb)
  · intro i
    rw [List.mem_append, hmem, hmem', hR]

theorem Lists.congr {l : List β} {P Q : ι → Prop} {f : ι → β} (h : Lists l P f)
    (hQ : ∀ i, Q i ↔ P i) : Lists l Q f := by
  obtain ⟨items, hnodup, hmem, hl⟩ := h
  exact ⟨items, hnodup, fun i => by rw [hQ, hmem], hl⟩

/-- A list of no items is empty. -/
theorem Lists.eq_nil {l : List β} {P : ι → Prop} {f : ι → β} (h : Lists l P f)
    (hnone : ∀ i, ¬ P i) : l = [] := by
  obtain ⟨items, -, hmem, rfl⟩ := h
  rw [List.eq_nil_iff_forall_not_mem.mpr fun i hi => hnone i ((hmem i).mp hi), List.map_nil]

/-- An entry is in the list exactly when its item is listed. -/
theorem Lists.mem_iff {l : List β} {P : ι → Prop} {f : ι → β} (h : Lists l P f) {b : β} :
    b ∈ l ↔ ∃ i, P i ∧ f i = b := by
  obtain ⟨items, -, hmem, rfl⟩ := h
  simp [hmem]

/-- Entries told apart by `g` occur once. -/
theorem Lists.nodup_map {γ : Type} {l : List β} {P : ι → Prop} {f : ι → β} (h : Lists l P f)
    (g : β → γ) (hg : ∀ i j, P i → P j → g (f i) = g (f j) → i = j) : (l.map g).Nodup := by
  obtain ⟨items, hnodup, hmem, rfl⟩ := h
  rw [List.map_map]
  exact hnodup.map_on fun i hi j hj hij => hg i j ((hmem i).mp hi) ((hmem j).mp hj) hij

/-- Adding up a list of new items enlarges a sum over a finite set. -/
theorem sum_add_listed {M : Type} [AddCommMonoid M] [DecidableEq ι] {A B : Finset ι}
    {items : List ι} (hnodup : items.Nodup) (hnew : ∀ i ∈ items, i ∉ A)
    (hB : ∀ i, i ∈ B ↔ i ∈ A ∨ i ∈ items) (f : ι → M) :
    ∑ i ∈ A, f i + (items.map f).sum = ∑ i ∈ B, f i := by
  have hunion : B = A ∪ items.toFinset := by
    ext i
    rw [hB, Finset.mem_union, List.mem_toFinset]
  have hdisj : Disjoint A items.toFinset := by
    rw [Finset.disjoint_right]
    intro i hi
    exact hnew i (List.mem_toFinset.mp hi)
  rw [hunion, Finset.sum_union hdisj, List.sum_toFinset f hnodup]

/-- Append an entry to the buffer at clock `e`, resizing the vector if needed. -/
def park (buf : List (List β)) (e : ℕ) (b : β) : List (List β) :=
  modifyAt buf e fun l => l ++ [b]

/-- The items parked at every clock value, each exactly once. -/
def Parks (buf : List (List β)) (P : ℕ → ι → Prop) (f : ι → β) : Prop :=
  ∀ e, Lists (slot buf e) (P e) f

theorem parks_nil {P : ℕ → ι → Prop} {f : ι → β} (h : ∀ e i, ¬ P e i) :
    Parks ([] : List (List β)) P f := fun e => lists_nil (h e)

/-- Parking one new item. -/
theorem Parks.park {buf : List (List β)} {P Q : ℕ → ι → Prop} {f : ι → β} {e : ℕ} {x : ι}
    (h : Parks buf P f) (hnew : ¬ P e x)
    (hQ : ∀ e' i, Q e' i ↔ P e' i ∨ (e' = e ∧ i = x)) : Parks (park buf e (f x)) Q f := by
  intro e'
  rw [Lib.park, slot_modifyAt]
  split
  · next he =>
      subst he
      refine (h e').append (lists_singleton (P := fun i => i = x) fun i => Iff.rfl) ?_ ?_
      · rintro i hi rfl
        exact hnew hi
      · intro i
        simp [hQ]
  · next he =>
      refine (h e').congr fun i => ?_
      simp [hQ, he]

/-- Releasing the buffer of one clock value. -/
theorem Parks.clearAt {buf : List (List β)} {P Q : ℕ → ι → Prop} {f : ι → β} {e : ℕ}
    (h : Parks buf P f) (hQ : ∀ e' i, Q e' i ↔ P e' i ∧ e' ≠ e) :
    Parks (clearAt buf e) Q f := by
  intro e'
  rw [slot_clearAt]
  split
  · next he => exact lists_nil fun i hi => ((hQ e' i).mp hi).2 he
  · next he =>
      refine (h e').congr fun i => ?_
      simp [hQ, he]

/-- Resizing the vector parks nothing. -/
theorem Parks.grow {buf : List (List β)} {P : ℕ → ι → Prop} {f : ι → β} (h : Parks buf P f)
    (n : ℕ) : Parks (grow buf n) P f := by
  intro e
  rw [slot_grow]
  exact h e

theorem Parks.congr {buf : List (List β)} {P Q : ℕ → ι → Prop} {f : ι → β} (h : Parks buf P f)
    (hQ : ∀ e i, Q e i ↔ P e i) : Parks buf Q f := fun e => (h e).congr (hQ e)

end FlexPS.Lib
