import Mathlib.Data.List.Sort
import Mathlib.Tactic.Common

/-!
# Staircases

A finite map that is kept in the order of its keys, with values that do not decrease from one key
to the next.  An entry for a new key keeps it so when its value lies between those of the keys
before it and those of the keys after it.

## Main definitions

* `Staircase kvs` — the keys increase and the values do not decrease.
* `Gap kvs k lo hi` — the values of the keys before `k` are at most `lo`, the others at least `hi`.
* `Staircase.insert` — a new entry in the gap of its key.
-/

namespace FlexPS.Lib

variable {κ ν : Type} [LinearOrder κ] [Preorder ν] {kvs : List (κ × ν)} {k : κ} {lo hi v : ν}

/-- The keys increase, and the values do not decrease. -/
def Staircase (kvs : List (κ × ν)) : Prop :=
  kvs.Pairwise fun kv kv' => kv.1 < kv'.1 ∧ kv.2 ≤ kv'.2

/-- The gap of a key: what is before it is at most `lo`, and the rest at least `hi`. -/
def Gap (kvs : List (κ × ν)) (k : κ) (lo hi : ν) : Prop :=
  ∀ kv ∈ kvs, (kv.1 < k → kv.2 ≤ lo) ∧ (k ≤ kv.1 → hi ≤ kv.2)

theorem staircase_nil : Staircase ([] : List (κ × ν)) := List.Pairwise.nil

theorem gap_nil (k : κ) (lo hi : ν) : Gap [] k lo hi := fun _ hkv => absurd hkv List.not_mem_nil

theorem gap_cons {kv : κ × ν} :
    Gap (kv :: kvs) k lo hi ↔
      ((kv.1 < k → kv.2 ≤ lo) ∧ (k ≤ kv.1 → hi ≤ kv.2)) ∧ Gap kvs k lo hi :=
  List.forall_mem_cons

/-- A part of a gap. -/
theorem Gap.mono (h : Gap kvs k lo hi) {lo' hi' : ν} (hlo : lo ≤ lo') (hhi : hi' ≤ hi) :
    Gap kvs k lo' hi' := by
  intro kv hkv
  obtain ⟨hbefore, hafter⟩ := h kv hkv
  exact ⟨fun hlt => (hbefore hlt).trans hlo, fun hle => hhi.trans (hafter hle)⟩

/-- **A new entry** in the gap of its key. -/
theorem Staircase.insert (h : Staircase kvs) (hnew : ∀ kv ∈ kvs, kv.1 ≠ k)
    (hgap : Gap kvs k v v) :
    Staircase (kvs.orderedInsert (fun kv kv' => kv.1 ≤ kv'.1) (k, v)) := by
  induction kvs with
  | nil => exact List.pairwise_singleton _ _
  | cons kv kvs ih =>
      obtain ⟨hhead, htail⟩ := List.pairwise_cons.mp h
      obtain ⟨⟨hbefore, hafter⟩, hrest⟩ := gap_cons.mp hgap
      have hne : kv.1 ≠ k := hnew kv (List.mem_cons_self ..)
      by_cases hle : k ≤ kv.1
      · have hlt : k < kv.1 := lt_of_le_of_ne hle hne.symm
        rw [List.orderedInsert_cons, if_pos hle]
        refine List.pairwise_cons.mpr ⟨fun kv' hmem => ?_, h⟩
        rcases List.mem_cons.mp hmem with rfl | hmem
        · exact ⟨hlt, hafter hle⟩
        · obtain ⟨hkey, hvalue⟩ := hhead kv' hmem
          exact ⟨hlt.trans hkey, (hafter hle).trans hvalue⟩
      · have hlt : kv.1 < k := not_le.mp hle
        rw [List.orderedInsert_cons, if_neg hle]
        refine List.pairwise_cons.mpr ⟨fun kv' hmem => ?_, ?_⟩
        · rcases (List.mem_orderedInsert _).mp hmem with rfl | hmem
          · exact ⟨hlt, hbefore hlt⟩
          · exact hhead kv' hmem
        · exact ih htail (fun kv' hmem => hnew kv' (List.mem_cons_of_mem _ hmem)) hrest

end FlexPS.Lib
