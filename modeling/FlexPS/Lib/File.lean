import Mathlib.Algebra.BigOperators.Group.List.Basic
import Mathlib.Algebra.GroupWithZero.Nat
import Mathlib.Data.Int.Notation
import Mathlib.Data.List.Perm.Subperm
import Mathlib.Logic.Function.Basic
import FlexPS.Lib.Codec

/-!
# Files and regions

A file is a growable array with a position.  Records that are written to it for the first time are
appended and keep their place; the file is then the records one after the other, in the order in
which they came, and writing a record again where it is changes nothing else.

## Main definitions

* `overwrite` — writing into the middle of an array.
* `File`, `File.seekSet`, `File.seekEnd`, `File.read`, `File.write` — a file and its operations.
* `Codec.getUpTo` — read up to a number of values.
* `place size order id` — where the record of `id` begins.
* `drop_place`, `overwrite_place` — reading a record, and writing it again.
-/

namespace FlexPS.Lib

variable {α : Type} {file data : List α} {pos : ℕ}

/-! ## Arrays -/

/-- Write into the middle of a file. -/
def overwrite (file : List α) (pos : ℕ) (data : List α) : List α :=
  file.take pos ++ data ++ file.drop (pos + data.length)

theorem length_overwrite (h : pos + data.length ≤ file.length) :
    (overwrite file pos data).length = file.length := by
  simp only [overwrite, List.length_append, List.length_take, List.length_drop]
  omega

/-- Writing at the end. -/
theorem overwrite_length (file data : List α) : overwrite file file.length data = file ++ data := by
  rw [overwrite, List.take_length, List.drop_of_length_le (Nat.le_add_right _ _), List.append_nil]

/-! ## Files -/

/-- A growable array and the position in it. -/
structure File (α : Type) where
  contents : List α
  pos : ℕ

namespace File

/-- A new file. -/
def empty : File α := ⟨[], 0⟩

/-- Go to a position, which fails when it is negative. -/
def seekSet (f : File α) (offset : ℤ) : File α :=
  if offset < 0 then f else { f with pos := offset.toNat }

/-- Go to the end. -/
def seekEnd (f : File α) : File α := { f with pos := f.contents.length }

/-- Write at the position; a gap before the position is filled with zeros. -/
def write [Inhabited α] (f : File α) (data : List α) : File α :=
  ⟨overwrite (f.contents ++ List.replicate (f.pos - f.contents.length) default) f.pos data,
    f.pos + data.length⟩

/-- Read up to `n` cells. -/
def read (f : File α) (n : ℕ) : List α × File α :=
  let data := (f.contents.drop f.pos).take n
  (data, { f with pos := f.pos + data.length })

/-- Inside the file nothing has to be filled. -/
theorem contents_write [Inhabited α] {f : File α} (h : f.pos ≤ f.contents.length) (data : List α) :
    (f.write data).contents = overwrite f.contents f.pos data := by
  rw [write, Nat.sub_eq_zero_of_le h, List.replicate_zero, List.append_nil]

@[simp] theorem contents_seekEnd (f : File α) : f.seekEnd.contents = f.contents := rfl

@[simp] theorem pos_seekEnd (f : File α) : f.seekEnd.pos = f.contents.length := rfl

@[simp] theorem contents_seekSet (f : File α) (offset : ℤ) :
    (f.seekSet offset).contents = f.contents := by
  unfold seekSet
  split <;> rfl

@[simp] theorem pos_seekSet (f : File α) (n : ℕ) : (f.seekSet n).pos = n := by
  rw [seekSet, if_neg (Int.not_lt.mpr (Int.natCast_nonneg n)), Int.toNat_natCast]

end File

/-! ## Reading values -/

namespace Codec

variable {C : Type}

/-- Read values off the front, up to the given number. -/
def getUpTo (c : Codec C α) : ℕ → List C → List α × List C
  | 0, bin => ([], bin)
  | n + 1, bin =>
      match c.get bin with
      | none => ([], bin)
      | some (a, bin) => (a :: (c.getUpTo n bin).1, (c.getUpTo n bin).2)

theorem length_getUpTo_le (c : Codec C α) (n : ℕ) (bin : List C) :
    (c.getUpTo n bin).1.length ≤ n := by
  induction n generalizing bin with
  | zero => exact Nat.le_refl _
  | succ n ih =>
      rw [getUpTo]
      split
      · exact Nat.zero_le _
      · exact Nat.succ_le_succ (ih _)

theorem getUpTo_flatMap (c : Codec C α) (as : List α) (rest : List C) :
    c.getUpTo as.length (as.flatMap c.put ++ rest) = (as, rest) := by
  induction as with
  | nil => rfl
  | cons a as ih =>
      rw [List.length_cons, getUpTo, List.flatMap_cons, List.append_assoc, c.get_put]
      simp only [ih]

end Codec

/-- A codec whose values all have the same number of cells. -/
structure FixedCodec (C α : Type) extends Codec C α where
  width : ℕ
  length_put : ∀ a, (put a).length = width

theorem FixedCodec.length_flatMap_put {C : Type} (c : FixedCodec C α) (as : List α) :
    (as.flatMap c.put).length = as.length * c.width := by
  induction as with
  | nil => simp
  | cons a as ih =>
      rw [List.flatMap_cons, List.length_append, ih, c.length_put, List.length_cons, Nat.succ_mul,
        Nat.add_comm]

/-! ## Records one after the other -/

/-- The size of all records. -/
def totalSize {κ : Type} (size : κ → ℕ) (order : List κ) : ℕ := (order.map size).sum

section Records

variable {κ : Type} {size : κ → ℕ} {order later : List κ} {content : κ → List α} {id id' : κ}

theorem totalSize_append (size : κ → ℕ) (order later : List κ) :
    totalSize size (order ++ later) = totalSize size order + totalSize size later := by
  simp [totalSize]

/-- Records without repetition are not larger than all of them. -/
theorem totalSize_le (hnodup : order.Nodup) (hsub : order ⊆ later) :
    totalSize size order ≤ totalSize size later := by
  obtain ⟨taken, htaken, hsublist⟩ := hnodup.subperm hsub
  obtain ⟨rest, hrest⟩ := hsublist.exists_perm_append
  have horder : totalSize size taken = totalSize size order := (htaken.map size).sum_eq
  have hlater : totalSize size later = totalSize size (taken ++ rest) := (hrest.map size).sum_eq
  rw [hlater, totalSize_append, horder]
  exact Nat.le_add_right _ _

theorem totalSize_cons (size : κ → ℕ) (id : κ) (later : List κ) :
    totalSize size (id :: later) = size id + totalSize size later := by
  simp [totalSize]

theorem length_records (hsize : ∀ k ∈ order, (content k).length = size k) :
    (order.flatMap content).length = totalSize size order := by
  rw [List.length_flatMap, totalSize]
  congr 1
  exact List.map_congr_left hsize

variable [DecidableEq κ]

/-- Where the record of `id` begins when the records stand in the given order. -/
def place (size : κ → ℕ) : List κ → κ → ℕ
  | [], _ => 0
  | k :: order, id => if k = id then 0 else size k + place size order id

/-- A record that is there keeps its place when others come. -/
theorem place_append (hid : id ∈ order) :
    place size (order ++ later) id = place size order id := by
  induction order with
  | nil => cases hid
  | cons k order ih =>
      rw [List.cons_append, place, place]
      split
      · rfl
      · next hne => rw [ih ((List.mem_cons.mp hid).resolve_left fun h => hne h.symm)]

/-- A record that is not there comes behind those that are. -/
theorem place_append_of_notMem (hid : id ∉ order) :
    place size (order ++ later) id = totalSize size order + place size later id := by
  induction order with
  | nil => simp [totalSize]
  | cons k order ih =>
      have hne : k ≠ id := fun heq => hid (heq ▸ List.mem_cons_self ..)
      rw [List.cons_append, place, if_neg hne, ih fun h => hid (List.mem_cons_of_mem k h),
        totalSize_cons, Nat.add_assoc]

/-- The next record comes at the end. -/
theorem place_append_self (hid : id ∉ order) :
    place size (order ++ id :: later) id = totalSize size order := by
  rw [place_append_of_notMem hid, place, if_pos rfl, Nat.add_zero]

/-- The records are inside. -/
theorem place_add_le (hid : id ∈ order) :
    place size order id + size id ≤ totalSize size order := by
  obtain ⟨before, after, rfl, hnot⟩ := List.eq_append_cons_of_mem hid
  rw [place_append_self hnot, totalSize_append, totalSize_cons]
  omega

/-- **The records do not overlap.** -/
theorem place_disjoint (hid : id ∈ order) (hid' : id' ∈ order) (hne : id ≠ id') :
    place size order id + size id ≤ place size order id' ∨
      place size order id' + size id' ≤ place size order id := by
  obtain ⟨before, after, rfl, hnot⟩ := List.eq_append_cons_of_mem hid
  rw [place_append_self hnot]
  by_cases hbefore : id' ∈ before
  · rw [place_append hbefore]
    exact .inr (place_add_le hbefore)
  · rw [place_append_of_notMem hbefore, place, if_neg hne]
    omega

/-- **A record is read** where it begins. -/
theorem drop_place (hsize : ∀ k ∈ order, (content k).length = size k) (hid : id ∈ order) :
    ∃ rest, (order.flatMap content).drop (place size order id) = content id ++ rest := by
  obtain ⟨before, after, rfl, hnot⟩ := List.eq_append_cons_of_mem hid
  refine ⟨after.flatMap content, ?_⟩
  have hlength : (before.flatMap content).length = totalSize size before :=
    length_records fun k hk => hsize k (List.mem_append_left _ hk)
  rw [place_append_self hnot, ← hlength, List.flatMap_append, List.drop_left, List.flatMap_cons]

/-- The other records stay. -/
theorem records_update (hid : id ∉ order) :
    order.flatMap (Function.update content id data) = order.flatMap content := by
  refine List.flatMap_congr fun k hk => ?_
  have hne : k ≠ id := fun heq => hid (heq ▸ hk)
  rw [Function.update_of_ne hne]

/-- **A new record** is written at the end. -/
theorem append_record (hid : id ∉ order) :
    order.flatMap content ++ data = (order ++ [id]).flatMap (Function.update content id data) := by
  rw [List.flatMap_append, records_update hid, List.flatMap_singleton, Function.update_self]

/-- **A record is written again** where it begins, and nothing else changes. -/
theorem overwrite_place (hnodup : order.Nodup)
    (hsize : ∀ k ∈ order, (content k).length = size k) (hid : id ∈ order)
    (hdata : data.length = size id) :
    overwrite (order.flatMap content) (place size order id) data =
      order.flatMap (Function.update content id data) := by
  obtain ⟨before, after, rfl, hnot⟩ := List.eq_append_cons_of_mem hid
  have hafter : id ∉ after := (List.nodup_cons.mp (List.nodup_append.mp hnodup).2.1).1
  have hlength : (before.flatMap content).length = totalSize size before :=
    length_records fun k hk => hsize k (List.mem_append_left _ hk)
  have hrecord : (content id).length = data.length := (hsize id hid).trans hdata.symm
  rw [place_append_self hnot, ← hlength, overwrite, List.flatMap_append, List.flatMap_cons,
    List.take_left, ← List.append_assoc, ← hrecord, ← List.length_append, List.drop_left,
    List.flatMap_append, List.flatMap_cons, records_update hnot, records_update hafter,
    Function.update_self, List.append_assoc]

end Records

end FlexPS.Lib
