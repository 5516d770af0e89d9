import Mathlib.Data.List.Basic
import Mathlib.Data.Nat.ModEq
import Mathlib.Tactic.Common

/-!
# Ring buffers

A ring buffer keeps a queue in a fixed number of cells.  Two indices run round the cells, one for
the next item that is put in and one for the next item that is taken out, and a count tells a full
buffer from an empty one.

## Main definitions

* `RingBuffer`, `RingBuffer.push`, `RingBuffer.pop` — the cells, the indices and the count.
* `RingBuffer.Holds` — the queue that a buffer stands for.
* `RingBuffer.Holds.push`, `RingBuffer.Holds.pop` — the operations are those of the queue.
-/

namespace FlexPS.Lib

/-- A ring buffer: `start` is the cell of the first item, and `stop` the cell after the last one. -/
structure RingBuffer (α : Type) where
  cells : List α
  start : ℕ
  stop : ℕ
  count : ℕ

namespace RingBuffer

variable {α : Type} {b : RingBuffer α} {x : α} {xs : List α}

/-- A buffer of `n` cells that are all `x`. -/
def init (n : ℕ) (x : α) : RingBuffer α := ⟨List.replicate n x, 0, 0, 0⟩

/-- The cell after the `i`-th one. -/
def advance (b : RingBuffer α) (i : ℕ) : ℕ :=
  if b.cells.length ≤ i + 1 then i + 1 - b.cells.length else i + 1

/-- Put an item in; the buffer must not be full. -/
def push (b : RingBuffer α) (x : α) : RingBuffer α :=
  { b with
    cells := b.cells.set b.stop x
    stop := b.advance b.stop
    count := b.count + 1 }

/-- Take an item out and leave `blank` in its cell; the buffer must not be empty. -/
def pop (b : RingBuffer α) (blank : α) : Option (α × RingBuffer α) :=
  b.cells[b.start]?.map fun x => (x, { b with
    cells := b.cells.set b.start blank
    start := b.advance b.start
    count := b.count - 1 })

/-- The items, from the first one to the last one. -/
def toList (b : RingBuffer α) : List α :=
  (List.range b.count).filterMap fun i => b.cells[(b.start + i) % b.cells.length]?

/-- The buffer stands for a queue. -/
structure Holds (b : RingBuffer α) (xs : List α) : Prop where
  count : b.count = xs.length
  fits : xs.length ≤ b.cells.length
  start_lt : b.start < b.cells.length
  stop : b.stop = (b.start + xs.length) % b.cells.length
  item : ∀ i < xs.length, b.cells[(b.start + i) % b.cells.length]? = xs[i]?

theorem advance_eq {i : ℕ} (h : i < b.cells.length) :
    b.advance i = (i + 1) % b.cells.length := by
  unfold advance
  split
  · next hwrap =>
      have hlast : i + 1 = b.cells.length := by omega
      rw [hlast, Nat.mod_self, Nat.sub_self]
  · next hlt => rw [Nat.mod_eq_of_lt (by omega)]

@[simp] theorem length_push (x : α) : (b.push x).cells.length = b.cells.length :=
  List.length_set

theorem holds_init {n : ℕ} (hn : 0 < n) (x : α) : (init n x).Holds [] := by
  have hlength : (init n x).cells.length = n := List.length_replicate
  exact ⟨rfl, Nat.zero_le _, by rwa [hlength], by simp [init], fun _ hi => absurd hi (by simp)⟩

/-- Different items are in different cells. -/
theorem index_ne {n s i j : ℕ} (hij : i < j) (hj : j < n) : (s + i) % n ≠ (s + j) % n := by
  intro heq
  have hmod : i ≡ j [MOD n] := Nat.ModEq.add_left_cancel' s heq
  rw [Nat.ModEq, Nat.mod_eq_of_lt (hij.trans hj), Nat.mod_eq_of_lt hj] at hmod
  exact absurd hmod hij.ne

/-- **Putting an item in** puts it at the end of the queue. -/
theorem Holds.push (h : b.Holds xs) (hroom : xs.length < b.cells.length) (x : α) :
    (b.push x).Holds (xs ++ [x]) := by
  have hstop : b.stop < b.cells.length := by
    rw [h.stop]
    exact Nat.mod_lt _ (Nat.zero_lt_of_lt hroom)
  refine ⟨?_, ?_, ?_, ?_, fun i hi => ?_⟩
  · simp [RingBuffer.push, h.count]
  · rw [length_push, List.length_append, List.length_singleton]
    exact hroom
  · rw [length_push]
    exact h.start_lt
  · rw [length_push, List.length_append, List.length_singleton]
    change b.advance b.stop = (b.start + (xs.length + 1)) % b.cells.length
    rw [advance_eq hstop, h.stop, Nat.mod_add_mod, Nat.add_assoc]
  · rw [length_push]
    change (b.cells.set b.stop x)[(b.start + i) % b.cells.length]? = _
    rw [List.length_append, List.length_singleton] at hi
    rcases Nat.lt_or_eq_of_le (Nat.le_of_lt_succ hi) with hlt | rfl
    · have hne : b.stop ≠ (b.start + i) % b.cells.length := by
        rw [h.stop]
        exact (index_ne hlt hroom).symm
      rw [List.getElem?_set_ne hne, h.item i hlt, List.getElem?_append_left hlt]
    · rw [← h.stop, List.getElem?_set_self hstop, List.getElem?_concat_length]

/-- **Taking an item out** takes the first one of the queue. -/
theorem Holds.pop (h : b.Holds (x :: xs)) (blank : α) :
    ∃ b', b.pop blank = some (x, b') ∧ b'.cells.length = b.cells.length ∧ b'.Holds xs := by
  have hfirst := h.item 0 (Nat.succ_pos _)
  rw [Nat.add_zero, Nat.mod_eq_of_lt h.start_lt, List.getElem?_cons_zero] at hfirst
  have hfits := h.fits
  have hcount := h.count
  have hadvance := advance_eq h.start_lt
  rw [List.length_cons] at hfits hcount
  refine ⟨_, by rw [RingBuffer.pop, hfirst, Option.map_some], List.length_set, ?_⟩
  refine ⟨?_, ?_, ?_, ?_, fun i hi => ?_⟩
  · change b.count - 1 = xs.length
    omega
  · rw [List.length_set]
    omega
  · rw [List.length_set]
    change b.advance b.start < b.cells.length
    rw [hadvance]
    exact Nat.mod_lt _ (by omega)
  · rw [List.length_set]
    change b.stop = (b.advance b.start + xs.length) % b.cells.length
    rw [hadvance, h.stop, Nat.mod_add_mod, List.length_cons]
    congr 1
    omega
  · have hitem := h.item (i + 1) (Nat.succ_lt_succ hi)
    rw [List.getElem?_cons_succ] at hitem
    have hindex : (b.advance b.start + i) % b.cells.length =
        (b.start + (i + 1)) % b.cells.length := by
      rw [hadvance, Nat.mod_add_mod]
      congr 1
      omega
    have hne : b.start ≠ (b.start + (i + 1)) % b.cells.length := by
      have hne' := @index_ne b.cells.length b.start 0 (i + 1) (Nat.succ_pos i) (by omega)
      rwa [Nat.add_zero, Nat.mod_eq_of_lt h.start_lt] at hne'
    rw [List.length_set]
    change (b.cells.set b.start blank)[(b.advance b.start + i) % b.cells.length]? = xs[i]?
    rw [hindex, List.getElem?_set_ne hne, hitem]

theorem filterMap_range (xs : List α) :
    (List.range xs.length).filterMap (fun i => xs[i]?) = xs := by
  induction xs with
  | nil => rfl
  | cons x xs ih =>
      rw [List.length_cons, List.range_succ_eq_map, List.filterMap_cons, List.filterMap_map]
      exact congrArg (x :: ·) ih

/-- The items are those of the queue. -/
theorem Holds.toList (h : b.Holds xs) : b.toList = xs := by
  have hitems : ∀ i ∈ List.range xs.length,
      b.cells[(b.start + i) % b.cells.length]? = xs[i]? :=
    fun i hi => h.item i (List.mem_range.mp hi)
  rw [RingBuffer.toList, h.count, List.filterMap_congr hitems, filterMap_range]

end RingBuffer

end FlexPS.Lib
