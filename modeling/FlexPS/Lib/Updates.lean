import Mathlib.Data.List.Nodup
import Mathlib.Data.List.Basic
import Mathlib.Logic.Function.Basic

/-!
# Adding to a function

A table of values that is changed by additions to single entries, as a function from keys.  The
additions to one key are made in the order of the list, so nothing is asked of the addition.

## Main definitions

* `addAt`, `addAll` — one addition, and one after the other.
* `addAll_apply` — an entry holds what it held and then what was added to it, in order.
* `map_modify`, `zipWith_add` — the same change to a list of the entries.
* `assign_pairs`, `assign_of_not_mem` — assignments instead of additions.
-/

namespace FlexPS.Lib

variable {κ α : Type} [DecidableEq κ]

section Additions

variable [Add α]

/-- Add to the entry of a key. -/
def addAt (g : κ → α) (p : κ × α) : κ → α := Function.update g p.1 (g p.1 + p.2)

/-- Add to the entries of some keys, one after the other. -/
def addAll (g : κ → α) (ps : List (κ × α)) : κ → α := ps.foldl addAt g

@[simp] theorem addAll_nil (g : κ → α) : addAll g [] = g := rfl

@[simp] theorem addAll_cons (g : κ → α) (p : κ × α) (ps : List (κ × α)) :
    addAll g (p :: ps) = addAll (addAt g p) ps := rfl

theorem addAll_append (g : κ → α) (ps qs : List (κ × α)) :
    addAll g (ps ++ qs) = addAll (addAll g ps) qs := by
  rw [addAll, List.foldl_append]
  rfl

@[simp] theorem addAt_self (g : κ → α) (p : κ × α) : addAt g p p.1 = g p.1 + p.2 :=
  Function.update_self ..

theorem addAt_of_ne (g : κ → α) {p : κ × α} {k : κ} (h : k ≠ p.1) : addAt g p k = g k :=
  Function.update_of_ne h _ _

/-- **An entry holds what it held before and what was added to it since**, in order. -/
theorem addAll_apply (g : κ → α) (ps : List (κ × α)) (k : κ) :
    addAll g ps k = ((ps.filter fun p => p.1 = k).map Prod.snd).foldl (· + ·) (g k) := by
  induction ps generalizing g with
  | nil => rfl
  | cons p ps ih =>
      rw [addAll_cons, ih]
      by_cases hk : p.1 = k
      · subst hk
        simp
      · simp [hk, addAt_of_ne g (Ne.symm hk)]

theorem addAll_of_not_mem (g : κ → α) {ps : List (κ × α)} {k : κ} (h : k ∉ ps.map Prod.fst) :
    addAll g ps k = g k := by
  have hnone : ps.filter (fun p => p.1 = k) = [] := by
    rw [List.filter_eq_nil_iff]
    intro p hp
    have hne : p.1 ≠ k := fun heq => h (heq ▸ List.mem_map_of_mem hp)
    simpa using hne
  rw [addAll_apply, hnone]
  rfl

/-- When every key is added to once. -/
theorem addAll_of_mem (g : κ → α) {ps : List (κ × α)} (hnodup : (ps.map Prod.fst).Nodup)
    {p : κ × α} (hp : p ∈ ps) : addAll g ps p.1 = g p.1 + p.2 := by
  induction ps generalizing g with
  | nil => cases hp
  | cons q ps ih =>
      rw [List.map_cons, List.nodup_cons] at hnodup
      rcases List.mem_cons.mp hp with rfl | hp
      · rw [addAll_cons, addAll_of_not_mem _ hnodup.1, addAt_self]
      · have hne : p.1 ≠ q.1 := fun heq => hnodup.1 (heq ▸ List.mem_map_of_mem hp)
        rw [addAll_cons, ih _ hnodup.2 hp, addAt_of_ne g hne]

/-- Adding to some entries of a list of entries, all of different keys. -/
theorem zipWith_add (g : κ → α) {ks : List κ} (hnodup : ks.Nodup) {vs : List α}
    (hlen : ks.length = vs.length) :
    List.zipWith (· + ·) (ks.map g) vs = ks.map (addAll g (ks.zip vs)) := by
  apply List.ext_getElem
  · simp [hlen]
  · intro i hi _
    have hks : i < ks.length := by simpa [hlen] using hi
    have hvs : i < vs.length := hlen ▸ hks
    have hmem : (ks[i], vs[i]) ∈ ks.zip vs := by
      rw [List.mem_iff_getElem]
      exact ⟨i, by simpa using Nat.lt_min.mpr ⟨hks, hvs⟩, by simp⟩
    have hkeys : ((ks.zip vs).map Prod.fst).Nodup := by rwa [List.map_fst_zip (Nat.le_of_eq hlen)]
    have hsum : addAll g (ks.zip vs) ks[i] = g ks[i] + vs[i] := addAll_of_mem g hkeys hmem
    simp [hsum]

end Additions

/-- Assigning to some entries, one after the other, values that are all those of `g`. -/
theorem assign_pairs {β : Type} {val : β → α} {key : β → κ} {g h : κ → α} {ps : List β}
    (hg : ∀ p ∈ ps, val p = g (key p)) (k : κ) :
    ps.foldl (fun h p => Function.update h (key p) (val p)) h k =
      if k ∈ ps.map key then g k else h k := by
  induction ps generalizing h with
  | nil => simp
  | cons p ps ih =>
      rw [List.foldl_cons, ih fun q hq => hg q (by simp [hq]), List.map_cons]
      by_cases hk : k = key p
      · subst hk
        simp [hg p (by simp)]
      · simp only [List.mem_cons, hk, false_or, Function.update_of_ne hk]

/-- An entry that nothing is assigned to. -/
theorem assign_of_not_mem {β : Type} {val : β → α} {key : β → κ} {h : κ → α} {ps : List β} {k : κ}
    (hk : k ∉ ps.map key) : ps.foldl (fun h p => Function.update h (key p) (val p)) h k = h k := by
  induction ps generalizing h with
  | nil => rfl
  | cons p ps ih =>
      obtain ⟨hne, hrest⟩ := not_or.mp (List.mem_cons.not.mp hk)
      rw [List.foldl_cons, ih hrest, Function.update_of_ne hne]

/-- Changing one entry of a list of entries, all of different keys. -/
theorem map_modify (g : κ → α) {ks : List κ} (hnodup : ks.Nodup) {i : ℕ} {k : κ}
    (hk : ks[i]? = some k) (f : α → α) :
    (ks.map g).modify i f = ks.map (Function.update g k (f (g k))) := by
  apply List.ext_getElem?
  intro j
  rw [List.getElem?_modify, List.getElem?_map, List.getElem?_map]
  by_cases hij : i = j
  · subst hij
    simp [hk]
  · cases hj : ks[j]? with
    | none => rfl
    | some k' =>
        have hne : k' ≠ k := by
          rintro rfl
          have hlt := (List.getElem?_eq_some_iff.mp hk).1
          exact hij ((List.getElem?_inj hlt hnodup).mp (hk.trans hj.symm))
        simp [hij, Function.update_of_ne hne]

end FlexPS.Lib
