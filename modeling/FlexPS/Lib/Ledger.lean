import Mathlib.Data.List.Basic
import Mathlib.Logic.ExistsUnique
import Mathlib.Tactic.Tauto

/-!
# Ledgers of resources

Resources are granted to holders, several at a time, and released one by one.  If only free
resources are granted, nobody shares a resource: the resources are divided into the free ones and
those of each holder.

## Main definitions

* `Ledger.holders` — who holds a resource, from the entries of the ledger.
* `Ledger.Books` — what the books say is free and held is so, and nothing is held twice.
* `Ledger.Books.grant`, `Ledger.Books.release` — what an entry does to the books.
* `Ledger.Books.partition` — a resource is free, or exactly one holder has it.
-/

namespace FlexPS.Lib.Ledger

variable {ι ρ : Type} [DecidableEq ι] [DecidableEq ρ]

/-- What happens to resources. -/
inductive Entry (ι ρ : Type) where
  | grant (holder : ι) (resources : List ρ)
  | release (holder : ι) (resource : ρ)

/-- The holders of a resource after one more entry. -/
def Entry.apply (r : ρ) (held : List ι) : Entry ι ρ → List ι
  | grant i rs => if r ∈ rs then i :: held else held
  | release i r' => if r' = r then held.erase i else held

/-- Everybody that has been granted the resource and has not released it. -/
def holders (entries : List (Entry ι ρ)) (r : ρ) : List ι :=
  entries.foldl (fun held e => e.apply r held) []

@[simp] theorem holders_nil (r : ρ) : holders ([] : List (Entry ι ρ)) r = [] := rfl

theorem holders_snoc (entries : List (Entry ι ρ)) (e : Entry ι ρ) (r : ρ) :
    holders (entries ++ [e]) r = e.apply r (holders entries r) := by
  rw [holders, List.foldl_append]
  rfl

/-- The books are right: `free` and `held` are what the entries say, and nobody shares. -/
structure Books (all free : ρ → Prop) (held : ι → ρ → Prop) (entries : List (Entry ι ρ)) :
    Prop where
  held_iff : ∀ i r, held i r ↔ all r ∧ i ∈ holders entries r
  free_iff : ∀ r, free r ↔ all r ∧ holders entries r = []
  one : ∀ r, (holders entries r).length ≤ 1

variable {all free free' : ρ → Prop} {held held' : ι → ρ → Prop} {entries : List (Entry ι ρ)}

theorem books_nil (hfree : ∀ r, free r ↔ all r) (hheld : ∀ i r, ¬ held i r) :
    Books all free held ([] : List (Entry ι ρ)) where
  held_iff i r := by simp [hheld]
  free_iff r := by simp [hfree]
  one _ := Nat.zero_le 1

omit [DecidableEq ι] in
/-- A list of one element at most that has an element is that element. -/
theorem eq_singleton_of_mem {l : List ι} (hlen : l.length ≤ 1) {i : ι} (hi : i ∈ l) : l = [i] := by
  match l, hlen, hi with
  | [j], _, hi => rw [List.mem_singleton.mp hi]

theorem Books.congr (h : Books all free held entries) (hfree : ∀ r, free' r ↔ free r)
    (hheld : ∀ i r, held' i r ↔ held i r) : Books all free' held' entries where
  held_iff i r := (hheld i r).trans (h.held_iff i r)
  free_iff r := (hfree r).trans (h.free_iff r)
  one := h.one

/-- **Free resources are granted.** -/
theorem Books.grant (h : Books all free held entries) {i : ι} {rs : List ρ}
    (hrs : ∀ r ∈ rs, free r) (hfree : ∀ r, free' r ↔ free r ∧ r ∉ rs)
    (hheld : ∀ i' r, held' i' r ↔ held i' r ∨ (i' = i ∧ r ∈ rs)) :
    Books all free' held' (entries ++ [.grant i rs]) where
  held_iff i' r := by
    rw [hheld, h.held_iff, holders_snoc, Entry.apply]
    split
    · next hr =>
        obtain ⟨hall, hnil⟩ := (h.free_iff r).mp (hrs r hr)
        rw [hnil]
        simp [hall, hr]
    · next hr => simp [hr]
  free_iff r := by
    rw [hfree, h.free_iff, holders_snoc, Entry.apply]
    split
    · next hr => simp [hr]
    · next hr => simp [hr]
  one r := by
    rw [holders_snoc, Entry.apply]
    split
    · next hr =>
        rw [((h.free_iff r).mp (hrs r hr)).2]
        exact Nat.le_refl 1
    · exact h.one r

/-- **A resource is released** by its holder. -/
theorem Books.release (h : Books all free held entries) {i : ι} {r₀ : ρ} (hall : all r₀)
    (hr₀ : i ∈ holders entries r₀) (hfree : ∀ r, free' r ↔ r = r₀ ∨ free r)
    (hheld : ∀ i' r, held' i' r ↔ held i' r ∧ ¬ (i' = i ∧ r = r₀)) :
    Books all free' held' (entries ++ [.release i r₀]) := by
  have hone : holders entries r₀ = [i] := eq_singleton_of_mem (h.one r₀) hr₀
  have hnow : ∀ r, holders (entries ++ [.release i r₀]) r =
      if r₀ = r then [] else holders entries r := by
    intro r
    rw [holders_snoc, Entry.apply]
    split
    · next hr =>
        subst hr
        rw [hone]
        simp
    · rfl
  refine ⟨fun i' r => ?_, fun r => ?_, fun r => ?_⟩
  · rw [hheld, h.held_iff, hnow]
    split
    · next hr =>
        subst hr
        rw [hone]
        simp
    · next hr => simp [Ne.symm hr]
  · rw [hfree, h.free_iff, hnow]
    split
    · next hr =>
        subst hr
        simp [hall]
    · next hr => simp [Ne.symm hr]
  · rw [hnow]
    split
    · exact Nat.zero_le 1
    · exact h.one r

/-- **A resource is free, or exactly one holder has it.** -/
theorem Books.partition (h : Books all free held entries) {r : ρ} (hall : all r) :
    (free r ∧ ∀ i, ¬ held i r) ∨ (¬ free r ∧ ∃! i, held i r) := by
  cases hholders : holders entries r with
  | nil =>
      refine .inl ⟨(h.free_iff r).mpr ⟨hall, hholders⟩, fun i hi => ?_⟩
      have := ((h.held_iff i r).mp hi).2
      rw [hholders] at this
      cases this
  | cons i l =>
      have hmem : i ∈ holders entries r := by
        rw [hholders]
        exact List.mem_cons_self ..
      refine .inr ⟨fun hr => ?_, i, (h.held_iff i r).mpr ⟨hall, hmem⟩, fun j hj => ?_⟩
      · rw [((h.free_iff r).mp hr).2] at hholders
        cases hholders
      · have hj := ((h.held_iff j r).mp hj).2
        rw [eq_singleton_of_mem (h.one r) hmem] at hj
        exact List.mem_singleton.mp hj

end FlexPS.Lib.Ledger
