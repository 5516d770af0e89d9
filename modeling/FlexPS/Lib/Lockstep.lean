import FlexPS.Lib.Machine
import Mathlib.Data.List.Forall2

/-!
# Two machines in lockstep

Two fallible computations agree when they fail together and their results are related;
`Option.Rel` says so.  Two machines that agree step by step agree on every run, and
outputs stay related one to one.

## Main definitions

* `Outcome R O` — related states with related outputs.
* `rel_bind` — agreement of computations that are put together.
* `mapM_eq_some` — a loop that succeeds, round by round.
* `run_lockstep` — agreement of runs.
* `run_filter` — inputs that do nothing may be left out.
-/

namespace FlexPS.Lib

variable {σ τ ι κ ω υ α β γ δ : Type}

/-- The results of two steps are related: the states, and the outputs one to one. -/
def Outcome (R : σ → τ → Prop) (O : ω → υ → Prop) (p : σ × List ω) (q : τ × List υ) : Prop :=
  R p.1 q.1 ∧ List.Forall₂ O p.2 q.2

theorem rel_bind {R : α → β → Prop} {Q : γ → δ → Prop} {x : Option α} {y : Option β}
    {f : α → Option γ} {g : β → Option δ} (h : Option.Rel R x y)
    (hfg : ∀ a b, R a b → Option.Rel Q (f a) (g b)) : Option.Rel Q (x.bind f) (y.bind g) := by
  cases h with
  | none => exact .none
  | some hab => exact hfg _ _ hab

theorem rel_map {R : α → β → Prop} {Q : γ → δ → Prop} {x : Option α} {y : Option β} {f : α → γ}
    {g : β → δ} (h : Option.Rel R x y) (hfg : ∀ a b, R a b → Q (f a) (g b)) :
    Option.Rel Q (x.map f) (y.map g) := by
  cases h with
  | none => exact .none
  | some hab => exact .some (hfg _ _ hab)

theorem rel_imp {R Q : α → β → Prop} {x : Option α} {y : Option β} (h : Option.Rel R x y)
    (hRQ : ∀ a b, R a b → Q a b) : Option.Rel Q x y := by
  cases h with
  | none => exact .none
  | some hab => exact .some (hRQ _ _ hab)

theorem rel_refl {R : α → α → Prop} (hR : ∀ a, R a a) (x : Option α) : Option.Rel R x x := by
  cases x with
  | none => exact .none
  | some a => exact .some (hR a)

theorem rel_ite {R : α → β → Prop} {c : Prop} [Decidable c] {x x' : Option α} {y y' : Option β}
    (h : c → Option.Rel R x y) (h' : ¬ c → Option.Rel R x' y') :
    Option.Rel R (if c then x else x') (if c then y else y') := by
  split
  · next hc => exact h hc
  · next hc => exact h' hc

/-- A loop over a list succeeds exactly when every round does. -/
theorem mapM_eq_some {f : α → Option β} {xs : List α} {ys : List β} :
    xs.mapM f = some ys ↔ List.Forall₂ (fun x y => f x = some y) xs ys := by
  induction xs generalizing ys with
  | nil =>
      cases ys <;> simp
  | cons x xs ih =>
      rw [List.mapM_cons, Option.bind_eq_bind, Option.bind_eq_some_iff]
      constructor
      · intro ⟨y, hy, h⟩
        rw [Option.bind_eq_bind, Option.bind_eq_some_iff] at h
        obtain ⟨rest, hrest, h⟩ := h
        obtain rfl := Option.some.inj h
        exact .cons hy (ih.mp hrest)
      · intro h
        cases h with
        | cons hy hrest =>
            refine ⟨_, hy, ?_⟩
            rw [ih.mpr hrest]
            rfl

theorem exists_of_mapM {f : α → Option β} {xs : List α} {ys : List β} (h : xs.mapM f = some ys)
    {x : α} (hx : x ∈ xs) : ∃ y, f x = some y := by
  rw [mapM_eq_some] at h
  induction h with
  | nil => cases hx
  | cons hy _ ih =>
      rcases List.mem_cons.mp hx with rfl | hx
      · exact ⟨_, hy⟩
      · exact ih hx

/-- A loop whose rounds are known. -/
theorem mapM_eq_map {f : α → Option β} {g : α → β} {xs : List α}
    (h : ∀ x ∈ xs, f x = some (g x)) : xs.mapM f = some (xs.map g) := by
  rw [mapM_eq_some, List.forall₂_map_right_iff, List.forall₂_same]
  exact h

theorem Outcome.append {R : σ → τ → Prop} {O : ω → υ → Prop} {p : σ × List ω} {q : τ × List υ}
    {o₁ : List ω} {o₂ : List υ} (h₁ : List.Forall₂ O o₁ o₂) (h₂ : Outcome R O p q) :
    Outcome R O (p.1, o₁ ++ p.2) (q.1, o₂ ++ q.2) :=
  ⟨h₂.1, List.rel_append h₁ h₂.2⟩

/-- Equal outputs one to one are the same outputs. -/
theorem outputs_eq {R : σ → τ → Prop} {x : Option (σ × List ω)} {y : Option (τ × List ω)}
    (h : Option.Rel (Outcome R Eq) x y) : x.map Prod.snd = y.map Prod.snd := by
  cases h with
  | none => rfl
  | some h =>
      have hout := h.2
      rw [List.forall₂_eq_eq_eq] at hout
      exact congrArg some hout

/-- **Runs in lockstep.**  Machines that agree on related inputs agree on related lists of
inputs. -/
theorem run_lockstep {R : σ → τ → Prop} {I : ι → κ → Prop} {O : ω → υ → Prop}
    {step : σ → ι → Option (σ × List ω)} {step' : τ → κ → Option (τ × List υ)}
    (hstep : ∀ {s s' i j}, R s s' → I i j → Option.Rel (Outcome R O) (step s i) (step' s' j))
    {is : List ι} {js : List κ} (hinputs : List.Forall₂ I is js) {s : σ} {s' : τ} (hs : R s s') :
    Option.Rel (Outcome R O) (run step s is) (run step' s' js) := by
  induction hinputs generalizing s s' with
  | nil => exact .some ⟨hs, .nil⟩
  | cons hij _ ih =>
      rw [run_cons, run_cons]
      refine rel_bind (hstep hs hij) fun p q hpq => ?_
      refine rel_bind (ih hpq.1) fun p' q' hpq' => ?_
      exact .some (.append hpq.2 hpq')

/-- The same for machines without outputs. -/
theorem foldlM_lockstep {R : σ → τ → Prop} {I : ι → κ → Prop} {step : σ → ι → Option σ}
    {step' : τ → κ → Option τ} (hstep : ∀ s s' i j, R s s' → I i j →
      Option.Rel R (step s i) (step' s' j))
    {is : List ι} {js : List κ} (hinputs : List.Forall₂ I is js) {s : σ} {s' : τ} (hs : R s s') :
    Option.Rel R (is.foldlM step s) (js.foldlM step' s') := by
  induction hinputs generalizing s s' with
  | nil => exact .some hs
  | cons hij _ ih =>
      rw [List.foldlM_cons, List.foldlM_cons]
      exact rel_bind (hstep _ _ _ _ hs hij) fun a b hab => ih hab

/-- Inputs that do nothing may be left out. -/
theorem run_filter {step : σ → ι → Option (σ × List ω)} {p : ι → Bool}
    (hskip : ∀ s i, p i = false → step s i = some (s, [])) (s : σ) (is : List ι) :
    run step s is = run step s (is.filter p) := by
  induction is generalizing s with
  | nil => rfl
  | cons i is ih =>
      cases hp : p i with
      | true =>
          rw [List.filter_cons_of_pos hp, run_cons, run_cons]
          refine congrArg _ (funext fun q => ?_)
          rw [ih q.1]
      | false =>
          rw [List.filter_cons_of_neg (by simp [hp]), run_cons, hskip s i hp, Option.bind_some, ih]
          cases run step s (is.filter p) <;> rfl

/-- Lists that are images of one list are related when the images are. -/
theorem forall₂_map {R : β → γ → Prop} {f : α → β} {g : α → γ} {l : List α}
    (h : ∀ x ∈ l, R (f x) (g x)) : List.Forall₂ R (l.map f) (l.map g) := by
  rw [List.forall₂_map_left_iff, List.forall₂_map_right_iff, List.forall₂_same]
  exact h

section Forall₂

variable {R : α → β → Prop} {xs : List α} {ys : List β}

theorem forall₂_zipIdx (h : List.Forall₂ R xs ys) (k : ℕ) :
    List.Forall₂ (fun x y => x.2 = y.2 ∧ R x.1 y.1) (xs.zipIdx k) (ys.zipIdx k) := by
  induction h generalizing k with
  | nil => exact .nil
  | cons hxy _ ih => exact .cons ⟨rfl, hxy⟩ (ih (k + 1))

theorem forall₂_getElem? (h : List.Forall₂ R xs ys) (j : ℕ) : Option.Rel R xs[j]? ys[j]? := by
  induction h generalizing j with
  | nil => exact .none
  | cons hxy _ ih =>
      cases j with
      | zero => exact .some hxy
      | succ j => exact ih j

theorem forall₂_eraseIdx (h : List.Forall₂ R xs ys) (j : ℕ) :
    List.Forall₂ R (xs.eraseIdx j) (ys.eraseIdx j) := by
  induction h generalizing j with
  | nil => exact .nil
  | cons hxy hrest ih =>
      cases j with
      | zero => exact hrest
      | succ j => exact .cons hxy (ih j)

/-- Keeping the entries that pass a test, when related entries pass it together. -/
theorem forall₂_filter {p : α → Bool} {q : β → Bool} (hpq : ∀ a b, R a b → p a = q b)
    (h : List.Forall₂ R xs ys) : List.Forall₂ R (xs.filter p) (ys.filter q) := by
  induction h with
  | nil => exact .nil
  | @cons a b _ _ hab _ ih =>
      cases hp : p a with
      | true =>
          rw [List.filter_cons_of_pos hp, List.filter_cons_of_pos ((hpq a b hab).symm.trans hp)]
          exact .cons hab ih
      | false =>
          have hq : q b = false := (hpq a b hab).symm.trans hp
          rw [List.filter_cons_of_neg (by simp [hp]), List.filter_cons_of_neg (by simp [hq])]
          exact ih

end Forall₂

end FlexPS.Lib
