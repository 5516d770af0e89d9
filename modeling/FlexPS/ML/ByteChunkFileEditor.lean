import Mathlib.Data.List.Nodup
import FlexPS.KVStore.RangeManager
import FlexPS.Lib.File
import FlexPS.Lib.Machine

/-!
# The temporary file in bytes

The file of the evicted chunks as the code has it: the places of the chunks and the number of bytes
written are `int`s, and values are written as the bytes that represent them.  As long as all chunks
together fit, the file holds the chunks that have been written, one after the other in the order of
their first writes.

## Main definitions

* `ByteChunkFileEditor` — the editor with its file and the chunks in memory.
* `readChunks`, `writeChunks` — its operations.
* `lastWrite` — the contents of a chunk at its most recent write.
* `Describes` — the counters describe the file.
* `chunk_file_faithful` — what is read is what was written.
-/

namespace FlexPS.ML

open Lib KVStore

/-- `ChunkFileEditor`; `chunks` is what `chunks_ptr_` points to. -/
structure ByteChunkFileEditor (Byte Val : Type) where
  file : File Byte
  chunkMap : ℕ → Option ℤ
  chunks : List (List Val)
  bytesWritten : ℤ
  lastChunkSize : ℕ
  chunkSize : ℕ
  numChunks : ℕ

/-- What happens to a chunk. -/
inductive ChunkEvent (Val : Type) where
  | wrote (id : ℕ) (chunk : List Val)
  | restored (id : ℕ) (chunk : List Val)
  | thrown (id : ℕ)

/-- The calls of the editor, and a change of the chunks in memory. -/
inductive ChunkCall (Val : Type) where
  | modify (chunks : List (List Val))
  | writeChunks (ids : List ℕ)
  | readChunks (ids : List ℕ)

/-- `resize` of a vector. -/
def resize {α : Type} [Inhabited α] (v : List α) (size : ℕ) : List α :=
  v.take size ++ List.replicate (size - v.length) default

namespace ByteChunkFileEditor

variable {Byte Val : Type}

/-- The constructor. -/
def new (chunks : List (List Val)) (chunkSize lastChunkSize numChunks : ℕ) :
    ByteChunkFileEditor Byte Val :=
  ⟨.empty, fun _ => none, chunks, 0, lastChunkSize, chunkSize, numChunks⟩

/-- The actual size of a chunk. -/
def actualSize (e : ByteChunkFileEditor Byte Val) (id : ℕ) : ℕ :=
  if id = wrap64 ((e.numChunks : ℤ) - 1) then e.lastChunkSize else e.chunkSize

-- The bytes that represent the values; `width` is `sizeof(Val)`.
variable (c : FixedCodec Byte Val)

/-- One round of `write_chunks`; writing more than the chunk holds is undefined. -/
def writeChunk [Inhabited Byte] (e : ByteChunkFileEditor Byte Val) (id : ℕ) :
    Option (ByteChunkFileEditor Byte Val × List (ChunkEvent Val)) :=
  let size := e.actualSize id
  e.chunks[id]?.bind fun chunk =>
    if chunk.length < size then none
    else match e.chunkMap id with
      | some pos => some
          ({ e with file := (e.file.seekSet pos).write ((chunk.take size).flatMap c.put) },
            [.wrote id (chunk.take size)])
      | none => some
          ({ e with
              chunkMap := Function.update e.chunkMap id (some e.bytesWritten)
              file := e.file.seekEnd.write ((chunk.take size).flatMap c.put)
              bytesWritten := toInt32 (wrap64 (e.bytesWritten + size * c.width)) },
            [.wrote id (chunk.take size)])

/-- `write_chunks`. -/
def writeChunks [Inhabited Byte] (e : ByteChunkFileEditor Byte Val) (ids : List ℕ) :
    Option (ByteChunkFileEditor Byte Val × List (ChunkEvent Val)) :=
  run (writeChunk c) e ids

/-- One round of `read_chunks` for a chunk with a place; what is not read stays as `resize` leaves
it. -/
def readChunk [Inhabited Val] (e : ByteChunkFileEditor Byte Val) (id : ℕ) (pos : ℤ) :
    Option (ByteChunkFileEditor Byte Val × ChunkEvent Val) := do
  let chunk ← e.chunks[id]?
  let size := e.actualSize id
  let (bytes, file) := (e.file.seekSet pos).read (size * c.width)
  let vals := (c.getUpTo size bytes).1
  let chunk := vals ++ (resize chunk size).drop vals.length
  some ({ e with file, chunks := e.chunks.set id chunk }, .restored id chunk)

/-- `read_chunks`, which throws at a chunk without a place. -/
def readChunks [Inhabited Val] (e : ByteChunkFileEditor Byte Val) :
    List ℕ → Option (ByteChunkFileEditor Byte Val × List (ChunkEvent Val))
  | [] => some (e, [])
  | id :: ids =>
      match e.chunkMap id with
      | none => some (e, [.thrown id])
      | some pos => do
          let (e, event) ← e.readChunk c id pos
          let (e, events) ← e.readChunks ids
          some (e, event :: events)

/-- A call, or a change of the memory. -/
def step [Inhabited Byte] [Inhabited Val] (e : ByteChunkFileEditor Byte Val) :
    ChunkCall Val → Option (ByteChunkFileEditor Byte Val × List (ChunkEvent Val))
  | .modify chunks => some ({ e with chunks }, [])
  | .writeChunks ids => e.writeChunks c ids
  | .readChunks ids => e.readChunks c ids

/-- A call for chunks that exist; what is to be written has its proper size. -/
def Admissible (e : ByteChunkFileEditor Byte Val) : ChunkCall Val → Prop
  | .modify chunks => chunks.length = e.numChunks
  | .writeChunks ids => ∀ id ∈ ids, ∃ chunk, e.chunks[id]? = some chunk ∧
      chunk.length = e.actualSize id
  | .readChunks ids => ∀ id ∈ ids, id < e.numChunks

/-! ## What has been written -/

/-- The contents of the chunk at its most recent write, after one more event. -/
def noteWrite (id : ℕ) (last : Option (List Val)) : ChunkEvent Val → Option (List Val)
  | .wrote id' chunk => if id' = id then some chunk else last
  | _ => last

/-- The contents of a chunk at its most recent write. -/
def lastWrite (history : List (ChunkEvent Val)) (id : ℕ) : Option (List Val) :=
  history.foldl (noteWrite id) none

/-- The bytes of the most recent write of a chunk. -/
def lastBytes (history : List (ChunkEvent Val)) (id : ℕ) : List Byte :=
  ((lastWrite history id).getD []).flatMap c.put

/-- The bytes of a chunk. -/
def byteSize (e : ByteChunkFileEditor Byte Val) (id : ℕ) : ℕ := e.actualSize id * c.width

/-- A chunk is restored with its contents at the most recent write, and a read of a chunk throws
when it has never been written. -/
def Honest (before : List (ChunkEvent Val)) : ChunkEvent Val → Prop
  | .wrote _ _ => True
  | .restored id chunk => lastWrite before id = some chunk
  | .thrown id => lastWrite before id = none

/-- **The counters describe the file**: the chunks that have been written stand one after the other
in the given order, each where `chunk_map_` says, and `bytes_written_` is the end of the file. -/
structure Describes (history : List (ChunkEvent Val)) (e : ByteChunkFileEditor Byte Val)
    (order : List ℕ) : Prop where
  nodup : order.Nodup
  mem_iff : ∀ id, id ∈ order ↔ (lastWrite history id).isSome
  size_eq : ∀ {id chunk}, lastWrite history id = some chunk → chunk.length = e.actualSize id
  contents_eq : e.file.contents = order.flatMap (lastBytes c history)
  chunkMap_eq : ∀ id, e.chunkMap id =
    if id ∈ order then some (place (e.byteSize c) order id : ℤ) else none
  bytesWritten_eq : e.bytesWritten = e.file.contents.length

/-! ## What a call does -/

section Calls

variable {c} {e e' : ByteChunkFileEditor Byte Val} {history : List (ChunkEvent Val)}
  {order : List ℕ} {id : ℕ} {chunk : List Val}

theorem lastWrite_snoc (history : List (ChunkEvent Val)) (event : ChunkEvent Val) (id : ℕ) :
    lastWrite (history ++ [event]) id = noteWrite id (lastWrite history id) event := by
  simp [lastWrite]

@[simp] theorem lastWrite_wrote_self (history : List (ChunkEvent Val)) (id : ℕ)
    (chunk : List Val) : lastWrite (history ++ [.wrote id chunk]) id = some chunk := by
  rw [lastWrite_snoc, noteWrite, if_pos rfl]

theorem lastWrite_wrote_of_ne (history : List (ChunkEvent Val)) {id id' : ℕ} (hne : id' ≠ id)
    (chunk : List Val) :
    lastWrite (history ++ [.wrote id chunk]) id' = lastWrite history id' := by
  rw [lastWrite_snoc, noteWrite, if_neg (Ne.symm hne)]

/-- A write changes the bytes of its chunk. -/
theorem lastBytes_wrote (c : FixedCodec Byte Val) (history : List (ChunkEvent Val)) (id : ℕ)
    (chunk : List Val) :
    lastBytes c (history ++ [.wrote id chunk]) =
      Function.update (lastBytes c history) id (chunk.flatMap c.put) := by
  funext id'
  by_cases heq : id' = id
  · rw [heq, Function.update_self, lastBytes, lastWrite_wrote_self, Option.getD_some]
  · rw [Function.update_of_ne heq, lastBytes, lastBytes, lastWrite_wrote_of_ne history heq]

/-- The sizes are those of the chunks of a table. -/
theorem actualSize_new {t : RangeTable} (hpos : 0 < t.chunkNum) (hlt : t.chunkNum ≤ 2 ^ 64)
    (chunks : List (List Val)) (id : ℕ) :
    (new chunks t.chunkSize t.getLastChunkSize t.chunkNum :
      ByteChunkFileEditor Byte Val).actualSize id = t.realChunkSize id := by
  have hlast : wrap64 ((t.chunkNum : ℤ) - 1) = t.chunkNum - 1 := by
    rw [← wrap64_of_lt (n := t.chunkNum - 1) (by omega)]
    congr 1
    omega
  rw [actualSize, RangeTable.realChunkSize]
  simp only [new, hlast]

/-- Nothing has been written. -/
theorem describes_new (chunks : List (List Val)) (chunkSize lastChunkSize numChunks : ℕ) :
    Describes c [] (new chunks chunkSize lastChunkSize numChunks) [] := by
  refine ⟨List.nodup_nil, fun id => ?_, nofun, rfl, fun id => ?_, rfl⟩
  · simp [lastWrite]
  · simp [new]

/-- A change of the memory or of the position in the file. -/
theorem Describes.congr (h : Describes c history e order) (hcontents : e'.file.contents =
      e.file.contents) (hmap : e'.chunkMap = e.chunkMap) (hwritten : e'.bytesWritten =
      e.bytesWritten) (hsize : e'.actualSize = e.actualSize) : Describes c history e' order := by
  have hbytes : e'.byteSize c = e.byteSize c := by
    funext id
    rw [byteSize, byteSize, hsize]
  refine ⟨h.nodup, h.mem_iff, fun hlast => hsize ▸ h.size_eq hlast, hcontents.trans h.contents_eq,
    fun id => ?_, ?_⟩
  · rw [hmap, h.chunkMap_eq, hbytes]
  · rw [hwritten, h.bytesWritten_eq, hcontents]

/-- Every record has the size of its chunk. -/
theorem Describes.length_lastBytes (h : Describes c history e order) :
    ∀ id ∈ order, (lastBytes c history id).length = e.byteSize c id := by
  intro id hid
  obtain ⟨chunk, hchunk⟩ := Option.isSome_iff_exists.mp ((h.mem_iff id).mp hid)
  rw [lastBytes, hchunk, Option.getD_some, c.length_flatMap_put, h.size_eq hchunk, byteSize]

theorem Describes.length_contents (h : Describes c history e order) :
    e.file.contents.length = totalSize (e.byteSize c) order := by
  rw [h.contents_eq]
  exact length_records h.length_lastBytes

/-- Small numbers are not wrapped. -/
theorem toInt32_wrap64 {n : ℕ} (hn : n < 2 ^ 31) : toInt32 (wrap64 n) = n := by
  rw [wrap64_of_lt (by omega), toInt32_of_lt hn]

/-- The chunks that are in the file after a write. -/
theorem Describes.isSome_lastWrite_wrote (h : Describes c history e order) (id' : ℕ) :
    (lastWrite (history ++ [.wrote id chunk]) id').isSome ↔ id' = id ∨ id' ∈ order := by
  by_cases heq : id' = id
  · rw [heq, lastWrite_wrote_self]
    simp
  · rw [lastWrite_wrote_of_ne history heq, h.mem_iff, or_iff_right heq]

theorem Describes.size_eq_wrote (h : Describes c history e order)
    (hsize : chunk.length = e.actualSize id) {id' : ℕ} {chunk' : List Val}
    (hlast : lastWrite (history ++ [.wrote id chunk]) id' = some chunk') :
    chunk'.length = e.actualSize id' := by
  by_cases heq : id' = id
  · rw [heq, lastWrite_wrote_self] at hlast
    rw [← Option.some.inj hlast, heq, hsize]
  · rw [lastWrite_wrote_of_ne history heq] at hlast
    exact h.size_eq hlast

theorem length_put_chunk (hsize : chunk.length = e.actualSize id) :
    (chunk.flatMap c.put).length = e.byteSize c id := by
  rw [c.length_flatMap_put, hsize, byteSize]

/-- A write of a chunk that is in the file keeps its place. -/
theorem Describes.writeInPlace [Inhabited Byte] (h : Describes c history e order)
    (hchunk : e.chunks[id]? = some chunk) (hsize : chunk.length = e.actualSize id)
    (hid : id ∈ order) : ∃ file, e.writeChunk c id = some ({ e with file }, [.wrote id chunk]) ∧
      Describes c (history ++ [.wrote id chunk]) { e with file } order := by
  have htake : chunk.take (e.actualSize id) = chunk := List.take_of_length_le hsize.le
  have hdata := length_put_chunk (c := c) hsize
  have hplace : e.chunkMap id = some (place (e.byteSize c) order id : ℤ) := by
    rw [h.chunkMap_eq, if_pos hid]
  have hend : place (e.byteSize c) order id + e.byteSize c id ≤ e.file.contents.length := by
    rw [h.length_contents]
    exact place_add_le hid
  have hin : place (e.byteSize c) order id ≤ e.file.contents.length :=
    Nat.le_trans (Nat.le_add_right _ _) hend
  generalize hfile : (e.file.seekSet (place (e.byteSize c) order id)).write
    (chunk.flatMap c.put) = file
  have hoverwrite : file.contents = overwrite e.file.contents (place (e.byteSize c) order id)
      (chunk.flatMap c.put) := by
    rw [← hfile, File.contents_write (by simpa using hin), File.contents_seekSet, File.pos_seekSet]
  refine ⟨file, ?_, h.nodup, fun id' => ?_, h.size_eq_wrote hsize, ?_, h.chunkMap_eq, ?_⟩
  · simp [ByteChunkFileEditor.writeChunk, hchunk, hsize, htake, hplace, hfile]
  · rw [h.isSome_lastWrite_wrote]
    exact (or_iff_right_of_imp fun heq => heq ▸ hid).symm
  · rw [hoverwrite, lastBytes_wrote, h.contents_eq]
    exact overwrite_place h.nodup h.length_lastBytes hid hdata
  · rw [hoverwrite, length_overwrite (by rwa [hdata])]
    exact h.bytesWritten_eq

/-- The first write of a chunk puts it at the end. -/
theorem Describes.writeAtEnd [Inhabited Byte] (h : Describes c history e order)
    (hchunk : e.chunks[id]? = some chunk) (hsize : chunk.length = e.actualSize id)
    (hid : id ∉ order) (hfits : totalSize (e.byteSize c) (order ++ [id]) < 2 ^ 31) :
    ∃ chunkMap file bytesWritten,
      e.writeChunk c id = some ({ e with chunkMap, file, bytesWritten }, [.wrote id chunk]) ∧
      Describes c (history ++ [.wrote id chunk]) { e with chunkMap, file, bytesWritten }
        (order ++ [id]) := by
  have htake : chunk.take (e.actualSize id) = chunk := List.take_of_length_le hsize.le
  have hdata := length_put_chunk (c := c) hsize
  have hplace : e.chunkMap id = none := by rw [h.chunkMap_eq, if_neg hid]
  have hcontents : (e.file.seekEnd.write (chunk.flatMap c.put)).contents =
      e.file.contents ++ chunk.flatMap c.put := by
    rw [File.contents_write (by simp), File.contents_seekEnd, File.pos_seekEnd, overwrite_length]
  have hwritten : toInt32 (wrap64 (e.bytesWritten + e.actualSize id * c.width)) =
      (e.file.contents ++ chunk.flatMap c.put).length := by
    have hsum : e.bytesWritten + e.actualSize id * c.width =
        ((e.file.contents.length + e.byteSize c id : ℕ) : ℤ) := by
      rw [h.bytesWritten_eq, byteSize]
      push_cast
      rfl
    rw [totalSize_append, totalSize_cons] at hfits
    rw [hsum, List.length_append, hdata, toInt32_wrap64]
    rw [h.length_contents]
    exact Nat.lt_of_le_of_lt (Nat.add_le_add_left (Nat.le_add_right _ _) _) hfits
  refine ⟨Function.update e.chunkMap id (some e.bytesWritten),
    e.file.seekEnd.write (chunk.flatMap c.put),
    toInt32 (wrap64 (e.bytesWritten + e.actualSize id * c.width)), ?_, ?_, fun id' => ?_,
    h.size_eq_wrote hsize, ?_, fun id' => ?_, ?_⟩
  · simp [ByteChunkFileEditor.writeChunk, hchunk, hsize, htake, hplace]
  · exact List.nodup_append.mpr ⟨h.nodup, List.nodup_singleton id, fun a ha b hb heq =>
      hid (List.mem_singleton.mp hb ▸ heq ▸ ha)⟩
  · rw [h.isSome_lastWrite_wrote, List.mem_append, List.mem_singleton, or_comm]
  · rw [hcontents, h.contents_eq, lastBytes_wrote]
    exact append_record hid
  · change Function.update e.chunkMap id (some e.bytesWritten) id' =
      if id' ∈ order ++ [id] then some (place (e.byteSize c) (order ++ [id]) id' : ℤ) else none
    by_cases heq : id' = id
    · rw [heq, Function.update_self, if_pos (by simp), h.bytesWritten_eq, h.length_contents]
      exact congrArg some (congrArg Nat.cast (place_append_self hid).symm)
    · rw [Function.update_of_ne heq, h.chunkMap_eq]
      by_cases hold : id' ∈ order
      · rw [if_pos hold, if_pos (List.mem_append_left _ hold)]
        exact congrArg some (congrArg Nat.cast (place_append hold).symm)
      · rw [if_neg hold, if_neg (by simp [hold, heq])]
  · rw [hwritten, hcontents]

/-- **A write of one chunk.** -/
theorem Describes.writeChunk [Inhabited Byte] (h : Describes c history e order)
    (hchunk : e.chunks[id]? = some chunk) (hsize : chunk.length = e.actualSize id)
    (hfits : id ∉ order → totalSize (e.byteSize c) (order ++ [id]) < 2 ^ 31) :
    ∃ e' order', e.writeChunk c id = some (e', [.wrote id chunk]) ∧
      Describes c (history ++ [.wrote id chunk]) e' order' ∧ order' ⊆ id :: order ∧
      e'.chunks = e.chunks ∧ e'.numChunks = e.numChunks ∧ e'.actualSize = e.actualSize := by
  by_cases hid : id ∈ order
  · obtain ⟨file, hwrite, hdescribes⟩ := h.writeInPlace hchunk hsize hid
    exact ⟨_, order, hwrite, hdescribes, List.subset_cons_self .., rfl, rfl, rfl⟩
  · obtain ⟨chunkMap, file, bytesWritten, hwrite, hdescribes⟩ :=
      h.writeAtEnd hchunk hsize hid (hfits hid)
    refine ⟨_, order ++ [id], hwrite, hdescribes, fun id' hid' => ?_, rfl, rfl, rfl⟩
    simpa [or_comm] using hid'

/-- The first write of a chunk, which comes at the end of the file. -/
theorem writeChunk_first [Inhabited Byte] (hchunk : e.chunks[id]? = some chunk)
    (hsize : chunk.length = e.actualSize id) (hplace : e.chunkMap id = none) :
    ∃ e', e.writeChunk c id = some (e', [.wrote id chunk]) ∧ e'.actualSize = e.actualSize ∧
      e'.chunkMap = Function.update e.chunkMap id (some e.bytesWritten) ∧
      e'.bytesWritten = toInt32 (wrap64 (e.bytesWritten + e.actualSize id * c.width)) ∧
      e'.file.pos = e'.file.contents.length := by
  have htake : chunk.take (e.actualSize id) = chunk := List.take_of_length_le hsize.le
  generalize hwritten : toInt32 (wrap64 (e.bytesWritten + e.actualSize id * c.width)) = written
  refine ⟨{ e with
    chunkMap := Function.update e.chunkMap id (some e.bytesWritten)
    file := e.file.seekEnd.write (chunk.flatMap c.put)
    bytesWritten := written }, ?_, rfl, rfl, rfl, ?_⟩
  · simp [writeChunk, hchunk, hsize, htake, hplace, hwritten]
  · simp [File.write, overwrite_length]

/-- **A chunk of the proper size is written** whether or not its place fits in an `int`. -/
theorem writeChunk_total [Inhabited Byte] (hchunk : e.chunks[id]? = some chunk)
    (hsize : chunk.length = e.actualSize id) :
    ∃ e', e.writeChunk c id = some (e', [.wrote id chunk]) ∧ e'.actualSize = e.actualSize ∧
      ∀ id', (e'.chunkMap id').isSome = true ↔ (e.chunkMap id').isSome = true ∨ id' = id := by
  cases hplace : e.chunkMap id with
  | some pos =>
      have htake : chunk.take (e.actualSize id) = chunk := List.take_of_length_le hsize.le
      refine ⟨{ e with file := (e.file.seekSet pos).write (chunk.flatMap c.put) }, ?_, rfl,
        fun id' => ?_⟩
      · simp [writeChunk, hchunk, hsize, htake, hplace]
      · refine (or_iff_left_of_imp fun heq => ?_).symm
        rw [heq, hplace, Option.isSome_some]
  | none =>
      obtain ⟨e', hwrite, hactual, hmap, -⟩ := writeChunk_first (c := c) hchunk hsize hplace
      refine ⟨e', hwrite, hactual, fun id' => ?_⟩
      rw [hmap]
      by_cases heq : id' = id
      · simp [heq]
      · simp [heq]

theorem length_resize {α : Type} [Inhabited α] (v : List α) (size : ℕ) :
    (resize v size).length = size := by
  rw [resize, List.length_append, List.length_take, List.length_replicate]
  omega

/-- A read of a chunk with a negative place: the position stays at the end of the file, where nothing
is read, and the chunk is as `resize` leaves it. -/
theorem readChunk_negative [Inhabited Val] (hchunk : e.chunks[id]? = some []) {pos : ℤ}
    (hneg : pos < 0) (hend : e.file.pos = e.file.contents.length) (hget : c.get [] = none) :
    e.readChunk c id pos = some ({ e with chunks := e.chunks.set id (resize [] (e.actualSize id)) },
      .restored id (resize [] (e.actualSize id))) := by
  have hread : (e.file.seekSet pos).read (e.actualSize id * c.width) = ([], e.file) := by
    have hdrop : e.file.contents.drop e.file.pos = [] := List.drop_of_length_le hend.ge
    rw [File.seekSet, if_pos hneg, File.read, hdrop, List.take_nil]
    rfl
  have hvals : (c.getUpTo (e.actualSize id) []).1 = [] := by
    cases e.actualSize id with
    | zero => rfl
    | succ n => rw [Codec.getUpTo, hget]
  simp only [readChunk, hchunk, hread, hvals, Option.bind_eq_bind, Option.bind_some,
    List.length_nil, List.nil_append, List.drop_zero]

/-- **A chunk is read in full length** wherever its place is; the file stays as it is. -/
theorem readChunk_total [Inhabited Val] (hid : id < e.chunks.length) (pos : ℤ) :
    ∃ chunk file, e.readChunk c id pos =
        some ({ e with file := file, chunks := e.chunks.set id chunk }, .restored id chunk) ∧
      chunk.length = e.actualSize id ∧ file.contents = e.file.contents := by
  obtain ⟨old, hold⟩ : ∃ old, e.chunks[id]? = some old := ⟨_, List.getElem?_eq_getElem hid⟩
  set data := (e.file.seekSet pos).read (e.actualSize id * c.width) with hdata
  set vals := (c.getUpTo (e.actualSize id) data.1).1 with hvals
  have hle : vals.length ≤ e.actualSize id := c.length_getUpTo_le _ _
  refine ⟨vals ++ (resize old (e.actualSize id)).drop vals.length, data.2, ?_, ?_, ?_⟩
  · simp only [readChunk, hold, Option.bind_eq_bind, Option.bind_some, ← hdata, ← hvals]
  · rw [List.length_append, List.length_drop, length_resize]
    omega
  · rw [hdata, File.read, File.contents_seekSet]

/-- **A read of one chunk** that has been written. -/
theorem Describes.readChunk [Inhabited Val] (h : Describes c history e order)
    (hlast : lastWrite history id = some chunk) (hid : id < e.chunks.length) :
    ∃ pos file, e.chunkMap id = some pos ∧ file.contents = e.file.contents ∧
      e.readChunk c id pos = some ({ e with file := file, chunks := e.chunks.set id chunk },
        .restored id chunk) := by
  have hmem : id ∈ order := (h.mem_iff id).mpr (by rw [hlast]; rfl)
  have hbytes : lastBytes c history id = chunk.flatMap c.put := by
    rw [lastBytes, hlast, Option.getD_some]
  have hsize := h.size_eq hlast
  have hlength : (chunk.flatMap c.put).length = e.actualSize id * c.width := by
    rw [c.length_flatMap_put, hsize]
  obtain ⟨rest, hdrop⟩ := drop_place h.length_lastBytes hmem
  rw [hbytes, ← h.contents_eq] at hdrop
  have hread : (e.file.contents.drop (place (e.byteSize c) order id)).take
      (e.actualSize id * c.width) = chunk.flatMap c.put := by
    rw [hdrop, ← hlength, List.take_left]
  have hvals : c.getUpTo (e.actualSize id) (chunk.flatMap c.put) = (chunk, []) := by
    have hall := c.getUpTo_flatMap chunk []
    rwa [List.append_nil, hsize] at hall
  obtain ⟨old, hold⟩ : ∃ old, e.chunks[id]? = some old := ⟨_, List.getElem?_eq_getElem hid⟩
  have hresize : (resize old (e.actualSize id)).drop chunk.length = [] :=
    List.drop_of_length_le (by rw [length_resize, hsize])
  refine ⟨place (e.byteSize c) order id, ⟨e.file.contents, place (e.byteSize c) order id +
    (chunk.flatMap c.put).length⟩, by rw [h.chunkMap_eq, if_pos hmem], rfl, ?_⟩
  simp only [ByteChunkFileEditor.readChunk, hold, File.read, File.contents_seekSet,
    File.pos_seekSet, hread, hvals, hresize, Option.bind_eq_bind, Option.bind_some, List.append_nil]

/-- What reads leave as it was. -/
structure OnlyRead (e e' : ByteChunkFileEditor Byte Val) : Prop where
  contents : e'.file.contents = e.file.contents
  chunkMap : e'.chunkMap = e.chunkMap
  bytesWritten : e'.bytesWritten = e.bytesWritten
  actualSize : e'.actualSize = e.actualSize
  numChunks : e'.numChunks = e.numChunks
  length : e'.chunks.length = e.chunks.length

theorem OnlyRead.refl (e : ByteChunkFileEditor Byte Val) : OnlyRead e e :=
  ⟨rfl, rfl, rfl, rfl, rfl, rfl⟩

theorem OnlyRead.trans {e₁ e₂ e₃ : ByteChunkFileEditor Byte Val} (h : OnlyRead e₁ e₂)
    (h' : OnlyRead e₂ e₃) : OnlyRead e₁ e₃ :=
  ⟨h'.1.trans h.1, h'.2.trans h.2, h'.3.trans h.3, h'.4.trans h.4, h'.5.trans h.5, h'.6.trans h.6⟩

theorem OnlyRead.describes (hread : OnlyRead e e') (h : Describes c history e order) :
    Describes c history e' order :=
  h.congr hread.contents hread.chunkMap hread.bytesWritten hread.actualSize

/-- The event of a read. -/
def IsRead : ChunkEvent Val → Prop
  | .wrote _ _ => False
  | _ => True

/-- **A call of `read_chunks`** restores what has been written, until it throws. -/
theorem Describes.readChunks [Inhabited Val] (h : Describes c history e order) {ids : List ℕ}
    (hids : ∀ id ∈ ids, id < e.chunks.length) :
    ∃ e' events, e.readChunks c ids = some (e', events) ∧ OnlyRead e e' ∧
      ∀ event ∈ events, IsRead event ∧ Honest history event := by
  induction ids generalizing e with
  | nil => exact ⟨e, [], rfl, .refl e, nofun⟩
  | cons id ids ih =>
      obtain ⟨hid, hids⟩ := List.forall_mem_cons.mp hids
      cases hlast : lastWrite history id with
      | none =>
          have hnone : e.chunkMap id = none := by
            rw [h.chunkMap_eq, if_neg]
            rw [h.mem_iff, hlast]
            exact Bool.false_ne_true
          refine ⟨e, [.thrown id], by rw [ByteChunkFileEditor.readChunks, hnone], .refl e, ?_⟩
          rintro _ (_ | ⟨_, ⟨⟩⟩)
          exact ⟨trivial, hlast⟩
      | some chunk =>
          obtain ⟨pos, file, hpos, hcontents, hread⟩ := h.readChunk hlast hid
          have honly : OnlyRead e { e with file := file, chunks := e.chunks.set id chunk } :=
            ⟨hcontents, rfl, rfl, rfl, rfl, List.length_set ..⟩
          obtain ⟨e', events, hreads, honly', hevents⟩ := ih (honly.describes h) (by
            rwa [honly.length])
          refine ⟨e', .restored id chunk :: events, ?_, honly.trans honly', ?_⟩
          · simp [ByteChunkFileEditor.readChunks, hpos, hread, hreads]
          · rintro event (_ | ⟨_, hevent⟩)
            · exact ⟨trivial, hlast⟩
            · exact hevents event hevent

/-- **Chunks that have all been written** are restored, and the others stay in memory as they
are. -/
theorem Describes.readChunks_written [Inhabited Val] (h : Describes c history e order)
    {ids : List ℕ} (hids : ∀ id ∈ ids, id < e.chunks.length)
    (hwritten : ∀ id ∈ ids, (lastWrite history id).isSome) :
    ∃ e' events, e.readChunks c ids = some (e', events) ∧ (∀ event ∈ events, ∀ id,
      event ≠ .thrown id) ∧
      ∀ id, e'.chunks[id]? = if id ∈ ids then lastWrite history id else e.chunks[id]? := by
  induction ids generalizing e with
  | nil => exact ⟨e, [], rfl, nofun, fun id => rfl⟩
  | cons id ids ih =>
      obtain ⟨hid, hids⟩ := List.forall_mem_cons.mp hids
      obtain ⟨hlast, hwritten⟩ := List.forall_mem_cons.mp hwritten
      obtain ⟨chunk, hlast⟩ := Option.isSome_iff_exists.mp hlast
      obtain ⟨pos, file, hpos, hcontents, hread⟩ := h.readChunk hlast hid
      have honly : OnlyRead e { e with file := file, chunks := e.chunks.set id chunk } :=
        ⟨hcontents, rfl, rfl, rfl, rfl, List.length_set ..⟩
      obtain ⟨e', events, hreads, hevents, hmemory⟩ := ih (honly.describes h)
        (by rwa [honly.length]) hwritten
      refine ⟨e', .restored id chunk :: events, ?_, ?_, fun id' => ?_⟩
      · simp [ByteChunkFileEditor.readChunks, hpos, hread, hreads]
      · rintro event (_ | ⟨_, hevent⟩)
        · exact nofun
        · exact hevents event hevent
      · rw [hmemory]
        by_cases hlater : id' ∈ ids
        · rw [if_pos hlater, if_pos (List.mem_cons_of_mem id hlater)]
        · by_cases heq : id' = id
          · rw [if_neg hlater, heq, if_pos (List.mem_cons_self ..), hlast,
              List.getElem?_set_self hid]
          · rw [if_neg hlater, if_neg (by simp [heq, hlater]), List.getElem?_set_ne (Ne.symm heq)]

/-! ## Every run -/

/-- What holds at any time. -/
structure Inv (c : FixedCodec Byte Val) (history : List (ChunkEvent Val))
    (e : ByteChunkFileEditor Byte Val) : Prop where
  described : ∃ order, Describes c history e order ∧ ∀ id ∈ order, id < e.numChunks
  length_eq : e.chunks.length = e.numChunks
  fits : totalSize (e.byteSize c) (List.range e.numChunks) < 2 ^ 31
  honest : Throughout Honest history

/-- Reads change nothing that has been written. -/
theorem lastWrite_append {events : List (ChunkEvent Val)} (hread : ∀ event ∈ events, IsRead event)
    (id : ℕ) : lastWrite (history ++ events) id = lastWrite history id := by
  induction events using List.reverseRecOn with
  | nil => rw [List.append_nil]
  | append_singleton events event ih =>
      have hlast := hread event (by simp)
      rw [← List.append_assoc, lastWrite_snoc, ih fun x hx => hread x (by simp [hx])]
      cases event with
      | wrote id chunk => exact hlast.elim
      | restored id chunk => rfl
      | thrown id => rfl

theorem honest_append {events : List (ChunkEvent Val)} (h : Throughout Honest history)
    (hevents : ∀ event ∈ events, IsRead event ∧ Honest history event) :
    Throughout Honest (history ++ events) := by
  induction events using List.reverseRecOn with
  | nil => rwa [List.append_nil]
  | append_singleton events event ih =>
      have hbefore : ∀ x ∈ events, IsRead x ∧ Honest history x :=
        fun x hx => hevents x (by simp [hx])
      obtain ⟨hread, hevent⟩ := hevents event (by simp)
      rw [← List.append_assoc]
      refine throughout_snoc.mpr ⟨ih hbefore, ?_⟩
      cases event with
      | wrote id chunk => exact hread.elim
      | restored id chunk =>
          rwa [Honest, lastWrite_append fun x hx => (hbefore x hx).1]
      | thrown id =>
          rwa [Honest, lastWrite_append fun x hx => (hbefore x hx).1]

/-- Reads that have been noted. -/
theorem Describes.append (h : Describes c history e order) {events : List (ChunkEvent Val)}
    (hread : ∀ event ∈ events, IsRead event) : Describes c (history ++ events) e order := by
  have hlast : ∀ id, lastWrite (history ++ events) id = lastWrite history id :=
    lastWrite_append hread
  refine ⟨h.nodup, fun id => ?_, fun hsome => ?_, ?_, h.chunkMap_eq, h.bytesWritten_eq⟩
  · rw [hlast, h.mem_iff]
  · rw [hlast] at hsome
    exact h.size_eq hsome
  · have hbytes : lastBytes c (history ++ events) = lastBytes c history := by
      funext id
      rw [lastBytes, lastBytes, hlast]
    rw [hbytes, h.contents_eq]

theorem Inv.writeChunk [Inhabited Byte] (h : Inv c history e)
    (hchunk : ∃ chunk, e.chunks[id]? = some chunk ∧ chunk.length = e.actualSize id) :
    ∃ e' out, e.writeChunk c id = some (e', out) ∧ Inv c (history ++ out) e' ∧
      e'.chunks = e.chunks ∧ e'.actualSize = e.actualSize := by
  obtain ⟨chunk, hchunk, hsize⟩ := hchunk
  obtain ⟨order, hdescribes, hlt⟩ := h.described
  have hid : id < e.numChunks := h.length_eq ▸ (List.getElem?_eq_some_iff.mp hchunk).1
  have hfits : id ∉ order → totalSize (e.byteSize c) (order ++ [id]) < 2 ^ 31 := by
    intro hnot
    refine Nat.lt_of_le_of_lt (totalSize_le ?_ fun id' hid' => ?_) h.fits
    · exact List.nodup_append.mpr ⟨hdescribes.nodup, List.nodup_singleton id, fun a ha b hb heq =>
        hnot (List.mem_singleton.mp hb ▸ heq ▸ ha)⟩
    · rw [List.mem_range]
      rcases List.mem_append.mp hid' with hold | hnew
      · exact hlt id' hold
      · rwa [List.mem_singleton.mp hnew]
  obtain ⟨e', order', hwrite, hdescribes', hsub, hchunks, hnum, hactual⟩ :=
    hdescribes.writeChunk hchunk hsize hfits
  have hbytes : e'.byteSize c = e.byteSize c := by
    funext id
    rw [byteSize, byteSize, hactual]
  refine ⟨e', _, hwrite, ⟨⟨order', hdescribes', fun id' hid' => ?_⟩, ?_, ?_, ?_⟩, hchunks, hactual⟩
  · rw [hnum]
    rcases List.mem_cons.mp (hsub hid') with rfl | hold
    · exact hid
    · exact hlt id' hold
  · rw [hchunks, hnum, h.length_eq]
  · rw [hbytes, hnum]
    exact h.fits
  · exact throughout_snoc.mpr ⟨h.honest, trivial⟩

/-- **A call** of the editor succeeds, and the counters go on describing the file. -/
theorem Inv.step [Inhabited Byte] [Inhabited Val] (h : Inv c history e) {call : ChunkCall Val}
    (hcall : e.Admissible call) :
    ∃ e' out, e.step c call = some (e', out) ∧ Inv c (history ++ out) e' := by
  cases call with
  | modify chunks =>
      obtain ⟨order, hdescribes, hlt⟩ := h.described
      refine ⟨{ e with chunks }, [], rfl, ?_⟩
      rw [List.append_nil]
      exact ⟨⟨order, hdescribes.congr rfl rfl rfl rfl, hlt⟩, hcall, h.fits, h.honest⟩
  | writeChunks ids =>
      obtain ⟨e', out, hrun, hinv, -⟩ := run_total
        (I := fun out e' => Inv c out e' ∧ e'.chunks = e.chunks ∧ e'.actualSize = e.actualSize)
        (P := fun _ _ id => ∃ chunk, e.chunks[id]? = some chunk ∧ chunk.length = e.actualSize id)
        (fun {out e' id} ⟨hinv, hchunks, hactual⟩ hchunk => by
          rw [← hchunks, ← hactual] at hchunk
          obtain ⟨e'', o, hwrite, hinv', hchunks', hactual'⟩ := hinv.writeChunk hchunk
          exact ⟨e'', o, hwrite, hinv', hchunks'.trans hchunks, hactual'.trans hactual⟩)
        ⟨h, rfl, rfl⟩ (along_of_forall hcall history e)
      exact ⟨e', out, hrun, hinv⟩
  | readChunks ids =>
      obtain ⟨order, hdescribes, hlt⟩ := h.described
      have hids : ∀ id ∈ ids, id < e.chunks.length := by
        rw [h.length_eq]
        exact hcall
      obtain ⟨e', events, hreads, honly, hevents⟩ := hdescribes.readChunks hids
      have hbytes : e'.byteSize c = e.byteSize c := by
        funext id
        rw [byteSize, byteSize, honly.actualSize]
      refine ⟨e', events, hreads, ⟨order, ?_, ?_⟩, ?_, ?_, honest_append h.honest hevents⟩
      · exact (honly.describes hdescribes).append fun event hevent => (hevents event hevent).1
      · rw [honly.numChunks]
        exact hlt
      · rw [honly.length, honly.numChunks, h.length_eq]
      · rw [hbytes, honly.numChunks]
        exact h.fits

end Calls

/-- **A faithful store of chunks.** -/
structure Faithful [Inhabited Val] (c : FixedCodec Byte Val) (history : List (ChunkEvent Val))
    (e : ByteChunkFileEditor Byte Val) : Prop where
  /-- The counters describe the file. -/
  described : ∃ order, Describes c history e order
  /-- The regions of the chunks are in the file. -/
  inside : ∀ {id pos}, e.chunkMap id = some pos →
    0 ≤ pos ∧ pos + e.byteSize c id ≤ e.file.contents.length
  /-- They do not overlap. -/
  disjoint : ∀ {id pos id' pos'}, e.chunkMap id = some pos → e.chunkMap id' = some pos' →
    id ≠ id' → pos + e.byteSize c id ≤ pos' ∨ pos' + e.byteSize c id' ≤ pos
  /-- Whatever has been read was written last. -/
  honest : Throughout Honest history
  /-- Chunks that have been written can be read, and the others stay in memory as they are. -/
  reads : ∀ ids, (∀ id ∈ ids, (lastWrite history id).isSome) →
    ∃ e' events, e.readChunks c ids = some (e', events) ∧
      (∀ event ∈ events, ∀ id, event ≠ .thrown id) ∧
      ∀ id, e'.chunks[id]? = if id ∈ ids then lastWrite history id else e.chunks[id]?
  /-- A read of a chunk that has never been written throws. -/
  throws : ∀ id ids, lastWrite history id = none →
    e.readChunks c (id :: ids) = some (e, [.thrown id])

theorem Inv.faithful [Inhabited Val] {c : FixedCodec Byte Val} {history : List (ChunkEvent Val)}
    {e : ByteChunkFileEditor Byte Val} (h : Inv c history e) : Faithful c history e := by
  obtain ⟨order, hdescribes, hlt⟩ := h.described
  have hplace : ∀ {id pos}, e.chunkMap id = some pos →
      id ∈ order ∧ pos = (place (e.byteSize c) order id : ℤ) := by
    intro id pos hpos
    rw [hdescribes.chunkMap_eq] at hpos
    split at hpos
    · next hid => exact ⟨hid, (Option.some.inj hpos).symm⟩
    · cases hpos
  constructor
  · exact ⟨order, hdescribes⟩
  · intro id pos hpos
    obtain ⟨hid, rfl⟩ := hplace hpos
    have hle : place (e.byteSize c) order id + e.byteSize c id ≤ totalSize (e.byteSize c) order :=
      place_add_le hid
    rw [hdescribes.length_contents]
    omega
  · intro id pos id' pos' hpos hpos' hne
    obtain ⟨hid, rfl⟩ := hplace hpos
    obtain ⟨hid', rfl⟩ := hplace hpos'
    have hdisj : place (e.byteSize c) order id + e.byteSize c id ≤ place (e.byteSize c) order id' ∨
        place (e.byteSize c) order id' + e.byteSize c id' ≤ place (e.byteSize c) order id :=
      place_disjoint hid hid' hne
    omega
  · exact h.honest
  · intro ids hwritten
    refine hdescribes.readChunks_written (fun id hid => ?_) hwritten
    rw [h.length_eq]
    exact hlt id ((hdescribes.mem_iff id).mpr (hwritten id hid))
  · intro id ids hlast
    have hnone : e.chunkMap id = none := by
      rw [hdescribes.chunkMap_eq, if_neg]
      rw [hdescribes.mem_iff, hlast]
      exact Bool.false_ne_true
    rw [readChunks, hnone]

/-- **What is read is what was written.**  When all chunks together fit in an `int`, every sequence
of calls for chunks of the proper sizes succeeds, and the editor is a faithful store of chunks at
any time. -/
theorem chunk_file_faithful [Inhabited Byte] [Inhabited Val] (c : FixedCodec Byte Val)
    (chunkSize lastChunkSize : ℕ) (chunks : List (List Val))
    (hfits : totalSize (byteSize c (new chunks chunkSize lastChunkSize chunks.length))
      (List.range chunks.length) < 2 ^ 31) (calls : List (ChunkCall Val))
    (hcalls : Along (step c) (fun _ => Admissible) []
      (new chunks chunkSize lastChunkSize chunks.length) calls) :
    ∃ e history, run (step c) (new chunks chunkSize lastChunkSize chunks.length) calls =
      some (e, history) ∧ Faithful c history e := by
  have hstart : Inv c [] (new chunks chunkSize lastChunkSize chunks.length) :=
    ⟨⟨[], describes_new .., nofun⟩, rfl, hfits, throughout_nil _⟩
  obtain ⟨e, history, hrun, h⟩ := run_total (fun h hcall => h.step hcall) hstart hcalls
  exact ⟨e, history, hrun, h.faithful⟩

/-- Values of two cells each. -/
def pairCodec : FixedCodec ℕ (ℕ × ℕ) where
  put p := [p.1, p.2]
  get
    | a :: b :: bin => some ((a, b), bin)
    | _ => none
  get_put _ _ := rfl
  width := 2
  length_put _ := rfl

/-- The short last chunk is written first, and a chunk that has changed in memory is restored. -/
theorem chunk_file_faithful_threeChunks :
    ∃ e history, run (step pairCodec) (new [[(1, 2), (3, 4)], [(0, 0), (0, 0)], [(5, 6)]] 2 1 3)
        [.writeChunks [2, 0], .modify [[(7, 8)], [], []], .readChunks [0, 2]] = some (e, history) ∧
      e.chunks = [[(1, 2), (3, 4)], [], [(5, 6)]] ∧ Faithful pairCodec history e := by
  obtain ⟨e, history, hrun, h⟩ := chunk_file_faithful pairCodec 2 1
    [[(1, 2), (3, 4)], [(0, 0), (0, 0)], [(5, 6)]] (by decide)
    [.writeChunks [2, 0], .modify [[(7, 8)], [], []], .readChunks [0, 2]] (by
      refine along_cons rfl (fun id hid => ?_) (along_cons rfl rfl (along_cons rfl ?_ trivial))
      · rcases List.mem_cons.mp hid with rfl | hid
        · exact ⟨[(5, 6)], rfl, rfl⟩
        · obtain rfl := List.mem_singleton.mp hid
          exact ⟨[(1, 2), (3, 4)], rfl, rfl⟩
      · exact fun id hid => by
          change id < 3
          simp only [List.mem_cons, List.not_mem_nil, or_false] at hid
          omega)
  refine ⟨e, history, hrun, ?_, h⟩
  have hchunks := congrArg (Option.map fun r => r.1.chunks) hrun
  exact (Option.some.inj hchunks).symm

end ByteChunkFileEditor

end FlexPS.ML
