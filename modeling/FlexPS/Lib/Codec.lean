import Mathlib.Data.List.Basic
import Mathlib.Tactic.Common

/-!
# Codecs over a first-in first-out stream

A stream is a list of cells, written at the back and read at the front.  A
`Codec C α` writes a value as some cells and reads it back, and carries the proof
that reading what was written returns the value and leaves the rest of the stream
untouched.  Vectors are written as their length followed by their elements.

## Main definitions

* `Codec C α` — a writer, a reader and their round trip.
* `Codec.getN` — read a given number of values.
* `Codec.vec`, `Codec.pair` — length-prefixed vectors, and pairs.
* `readN` — read a number of records with any reader.
-/

namespace FlexPS.Lib

/-- A writer and a reader for `α` that are inverse on every stream. -/
structure Codec (C α : Type) where
  /-- The cells written for a value. -/
  put : α → List C
  /-- Read one value off the front. -/
  get : List C → Option (α × List C)
  get_put : ∀ a rest, get (put a ++ rest) = some (a, rest)

namespace Codec

variable {C α : Type}

/-- Read `n` values off the front, in order. -/
def getN (c : Codec C α) : ℕ → List C → Option (List α × List C)
  | 0, bin => some ([], bin)
  | n + 1, bin => do
      let (a, bin) ← c.get bin
      let (as, bin) ← c.getN n bin
      some (a :: as, bin)

theorem getN_flatMap (c : Codec C α) (as : List α) (rest : List C) :
    c.getN as.length (as.flatMap c.put ++ rest) = some (as, rest) := by
  induction as with
  | nil => rfl
  | cons a as ih =>
      simp only [List.length_cons, getN, List.flatMap_cons, List.append_assoc, c.get_put]
      simp [ih]

/-- A vector: its length, then its elements. -/
def vec (len : Codec C ℕ) (c : Codec C α) : Codec C (List α) where
  put as := len.put as.length ++ as.flatMap c.put
  get bin := do
    let (n, bin) ← len.get bin
    c.getN n bin
  get_put := by
    intro as rest
    simp [List.append_assoc, len.get_put, getN_flatMap]

@[simp] theorem get_put_nil (c : Codec C α) (a : α) : c.get (c.put a) = some (a, []) := by
  simpa using c.get_put a []

@[simp] theorem get_put_append (c : Codec C α) (a : α) (rest : List C) :
    c.get (c.put a ++ rest) = some (a, rest) := c.get_put a rest

/-- Two values, one after the other. -/
def pair {β : Type} (c : Codec C α) (d : Codec C β) : Codec C (α × β) where
  put p := c.put p.1 ++ d.put p.2
  get bin := do
    let (a, bin) ← c.get bin
    let (b, bin) ← d.get bin
    some ((a, b), bin)
  get_put := by
    intro p rest
    simp [List.append_assoc]

end Codec

/-! ## Readers that are no codecs -/

section Readers

variable {C α β : Type}

/-- Read `n` values with a reader. -/
def readN (get : List C → Option (α × List C)) : ℕ → List C → Option (List α × List C)
  | 0, bin => some ([], bin)
  | n + 1, bin => do
      let (a, bin) ← get bin
      let (as, bin) ← readN get n bin
      some (a :: as, bin)

/-- **Records one after the other** are read one by one, exactly when each of them is read. -/
theorem readN_flatMap_iff {get : List C → Option (β × List C)} {put : α → List C}
    {R : α → β → Prop} {P : α → Prop} {as : List α}
    (hread : ∀ a ∈ as, ∀ rest rest',
      (∃ b, get (put a ++ rest) = some (b, rest') ∧ R a b) ↔ P a ∧ rest' = rest)
    {rest rest' : List C} :
    (∃ bs, readN get as.length (as.flatMap put ++ rest) = some (bs, rest') ∧
      List.Forall₂ R as bs) ↔ (∀ a ∈ as, P a) ∧ rest' = rest := by
  induction as with
  | nil =>
      constructor
      · rintro ⟨bs, hreads, -⟩
        obtain ⟨-, rfl⟩ := Prod.mk.inj (Option.some.inj hreads)
        exact ⟨nofun, rfl⟩
      · rintro ⟨-, rfl⟩
        exact ⟨[], rfl, .nil⟩
  | cons a as ih =>
      obtain ⟨hfirst, hlater⟩ := List.forall_mem_cons.mp hread
      rw [List.flatMap_cons, List.append_assoc, List.forall_mem_cons]
      constructor
      · rintro ⟨bs, hreads, hbs⟩
        -- the first record determines where the others begin
        obtain ⟨⟨b, bin⟩, hget, hothers⟩ := Option.bind_eq_some_iff.mp hreads
        obtain ⟨⟨bs', bin'⟩, hlast, heq⟩ := Option.bind_eq_some_iff.mp hothers
        obtain ⟨rfl, rfl⟩ := Prod.mk.inj (Option.some.inj heq)
        obtain ⟨hb, hbs⟩ := List.forall₂_cons.mp hbs
        obtain ⟨ha, rfl⟩ := (hfirst _ _).mp ⟨b, hget, hb⟩
        obtain ⟨has, hrest⟩ := (ih hlater).mp ⟨bs', hlast, hbs⟩
        exact ⟨⟨ha, has⟩, hrest⟩
      · rintro ⟨⟨ha, has⟩, hrest⟩
        obtain ⟨b, hget, hb⟩ := (hfirst (as.flatMap put ++ rest) _).mpr ⟨ha, rfl⟩
        obtain ⟨bs, hreads, hbs⟩ := (ih hlater).mpr ⟨has, hrest⟩
        refine ⟨b :: bs, ?_, .cons hb hbs⟩
        simp [readN, hget, hreads]

end Readers

end FlexPS.Lib
