import Mathlib.Data.List.Basic
import Mathlib.Data.List.Nodup
import Mathlib.Tactic.Common

/-!
# Replicated items that are handed out

An item has replicas at several places.  When it is handed out, all of its replicas are removed, so
that it is not handed out again; and when no place has any item left, all have been handed out.

## Main definitions

* `Replicas` — every place has the items that are located there and have not been handed out.
* `Replicas.take` — handing an item out.
* `Replicas.exhausted` — nothing is left.
-/

namespace FlexPS.Lib

variable {κ α : Type}

/-- One more item that is new. -/
theorem nodup_snoc {l : List α} {x : α} (hl : l.Nodup) (hx : x ∉ l) :
    (l ++ [x]).Nodup := by
  refine List.nodup_append.mpr ⟨hl, List.nodup_singleton x, ?_⟩
  rintro y hy z hz rfl
  exact hx (List.mem_singleton.mp hz ▸ hy)

/-- What the places have, when the items in `gone` have been handed out. -/
structure Replicas (located : κ → α → Prop) (gone : List α) (items : κ → List α) : Prop where
  mem : ∀ k x, x ∈ items k ↔ located k x ∧ x ∉ gone
  nodup : ∀ k, (items k).Nodup

namespace Replicas

variable {located : κ → α → Prop} {gone : List α} {items items' : κ → List α} {k : κ} {x : α}

/-- An item that is there can be handed out. -/
theorem fresh (h : Replicas located gone items) (hx : x ∈ items k) : located k x ∧ x ∉ gone :=
  (h.mem k x).mp hx

/-- **An item is handed out**, and its replicas are removed. -/
theorem take [DecidableEq α] (h : Replicas located gone items)
    (hitems : ∀ k, items' k = (items k).erase x) : Replicas located (gone ++ [x]) items' where
  mem k y := by
    rw [hitems, (h.nodup k).mem_erase_iff, h.mem, List.mem_append, List.mem_singleton]
    tauto
  nodup k := by
    rw [hitems]
    exact (h.nodup k).erase x

/-- **Nothing is left**: every item has been handed out. -/
theorem exhausted (h : Replicas located gone items) (hnil : ∀ k, items k = [])
    (hx : located k x) : x ∈ gone := by
  by_contra hgone
  have hmem := (h.mem k x).mpr ⟨hx, hgone⟩
  rw [hnil] at hmem
  cases hmem

end Replicas

end FlexPS.Lib
