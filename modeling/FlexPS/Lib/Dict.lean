import Mathlib.Data.List.AList
import Mathlib.Data.List.Basic
import Mathlib.Tactic.Common

/-!
# Dictionaries of lists

A dictionary whose values are lists, with a missing key standing for the empty list, as the
`operator[]` of a map of sets has it.

## Main definitions

* `Dict` — association lists with values of one type.
* `Dict.getD`, `Dict.set`, `Dict.drop` — read, write and remove.
* `Dict.mapValues` — change every value.
-/

namespace FlexPS.Lib

/-- A map from keys to values. -/
abbrev Dict (κ ν : Type) := AList fun _ : κ => ν

namespace Dict

variable {κ ν : Type} [DecidableEq κ]

/-- The value of a key, or what `operator[]` puts there. -/
def getD (d : Dict κ ν) (k : κ) (v : ν) : ν := (d.lookup k).getD v

/-- Write a value. -/
def set (d : Dict κ ν) (k : κ) (v : ν) : Dict κ ν := AList.insert k v d

/-- Remove a key. -/
def drop (d : Dict κ ν) (k : κ) : Dict κ ν := AList.erase k d

/-- Change every value. -/
def mapValues {ν' : Type} (f : ν → ν') (d : Dict κ ν) : Dict κ ν' :=
  ⟨d.entries.map (Sigma.map id fun _ => f), d.nodupKeys.map₂ fun _ => f⟩

/-- `empty()`. -/
def isEmpty (d : Dict κ ν) : Bool := d.keys.isEmpty

omit [DecidableEq κ] in
theorem isEmpty_iff (d : Dict κ ν) : d.isEmpty = true ↔ ∀ k, k ∉ d := by
  rw [isEmpty, List.isEmpty_iff, List.eq_nil_iff_forall_not_mem]
  rfl

@[simp] theorem getD_empty (k : κ) (v : ν) : getD (∅ : Dict κ ν) k v = v := rfl

@[simp] theorem getD_set_self (d : Dict κ ν) (k : κ) (v w : ν) : (d.set k v).getD k w = v := by
  rw [getD, set, AList.lookup_insert]
  rfl

theorem getD_set_of_ne (d : Dict κ ν) {k k' : κ} (h : k' ≠ k) (v w : ν) :
    (d.set k v).getD k' w = d.getD k' w := by
  rw [getD, getD, set, AList.lookup_insert_ne h]

@[simp] theorem getD_drop_self (d : Dict κ ν) (k : κ) (w : ν) : (d.drop k).getD k w = w := by
  rw [getD, drop, AList.lookup_erase]
  rfl

theorem getD_drop_of_ne (d : Dict κ ν) {k k' : κ} (h : k' ≠ k) (w : ν) :
    (d.drop k).getD k' w = d.getD k' w := by
  rw [getD, getD, drop, AList.lookup_erase_ne h]

@[simp] theorem mem_set (d : Dict κ ν) (k k' : κ) (v : ν) : k' ∈ d.set k v ↔ k' = k ∨ k' ∈ d :=
  AList.mem_insert d

@[simp] theorem mem_drop (d : Dict κ ν) (k k' : κ) : k' ∈ d.drop k ↔ k' ≠ k ∧ k' ∈ d :=
  AList.mem_erase

theorem lookup_mapValues {ν' : Type} (f : ν → ν') (d : Dict κ ν) (k : κ) :
    (d.mapValues f).lookup k = (d.lookup k).map f :=
  List.dlookup_map₂ k

theorem getD_mapValues {ν' : Type} (f : ν → ν') (d : Dict κ ν) (k : κ) (w : ν) :
    (d.mapValues f).getD k (f w) = f (d.getD k w) := by
  rw [getD, getD, lookup_mapValues]
  cases d.lookup k <;> rfl

/-- A key that is missing has the default. -/
theorem getD_of_not_mem {d : Dict κ ν} {k : κ} (h : k ∉ d) (w : ν) : d.getD k w = w := by
  rw [getD, AList.lookup_eq_none.mpr h]
  rfl

/-- The entries are what can be looked up. -/
theorem getD_of_mem_entries {d : Dict κ ν} {k : κ} {v : ν} (h : ⟨k, v⟩ ∈ d.entries) (w : ν) :
    d.getD k w = v := by
  rw [getD, AList.mem_lookup_iff.mpr h]
  rfl

/-- Every value that is not the default is an entry. -/
theorem mem_entries_of_getD {d : Dict κ ν} {k : κ} {v w : ν} (h : d.getD k w = v) (hv : v ≠ w) :
    ⟨k, v⟩ ∈ d.entries := by
  rw [getD] at h
  cases hlookup : d.lookup k with
  | none =>
      rw [hlookup] at h
      exact absurd h.symm hv
  | some v' =>
      rw [hlookup] at h
      obtain rfl : v' = v := h
      exact AList.mem_lookup_iff.mp hlookup

end Dict

end FlexPS.Lib
