import FlexPS.Lib.Codec
import FlexPS.KVStore.RangeManager

/-!
# Messages between workers and servers

`BinStream` is a first-in first-out queue.  Its cells are typed, so that reading a
field of the wrong type fails instead of producing some value: a pair of encoder
and decoder that agrees here agrees byte for byte.  A pointer that is sent inside a
process is a cell that denotes the object it was created from.

A request is `kv_id, ts, cmd, push, src` followed by a body, and so is a reply.

## Main definitions

* `Cell`, `BinStream` — the stream and what it holds.
* `Request`, `Request.toBin`, `readRequest` — a request and its header.
* `Reply`, `response` — the arguments and the bytes of `ServerBase::Response`.
-/

namespace FlexPS.KVStore

open Lib

variable {Val : Type}

/-- `KVPairs<Val>`. -/
structure KVPairs (Val : Type) where
  keys : List ℕ
  vals : List Val
  deriving DecidableEq, Repr, Inhabited

namespace KVPairs

/-- `KVPairs<Val>()`. -/
def empty : KVPairs Val := ⟨[], []⟩

end KVPairs

/-- The object a zero-copy chunk request points to: chunk ids and chunks. -/
abbrev ChunkPairs (Val : Type) := List ℕ × List (List Val)

/-- One item of a `BinStream`. -/
inductive Cell (Val : Type) where
  | int (i : ℤ)
  | bool (b : Bool)
  /-- `size_t` and `Key`. -/
  | word (n : ℕ)
  | val (v : Val)
  /-- A pointer to a `KVPairs<Val>`. -/
  | kvPtr (p : KVPairs Val)
  /-- A pointer to the chunk ids and the chunks of a request. -/
  | chunkPtr (p : ChunkPairs Val)
  deriving DecidableEq, Repr

/-- `husky::base::BinStream`. -/
abbrev BinStream (Val : Type) := List (Cell Val)

namespace Cell

/-- A non-negative `int`: identifiers, timestamps and commands. -/
def nat : Codec (Cell Val) ℕ where
  put n := [int n]
  get
    | int i :: bin => if 0 ≤ i then some (i.toNat, bin) else none
    | _ => none
  get_put := by simp

def intCodec : Codec (Cell Val) ℤ where
  put i := [int i]
  get
    | int i :: bin => some (i, bin)
    | _ => none
  get_put := by simp

def boolCodec : Codec (Cell Val) Bool where
  put b := [bool b]
  get
    | bool b :: bin => some (b, bin)
    | _ => none
  get_put := by simp

def wordCodec : Codec (Cell Val) ℕ where
  put n := [word n]
  get
    | word n :: bin => some (n, bin)
    | _ => none
  get_put := by simp

def valCodec : Codec (Cell Val) Val where
  put v := [val v]
  get
    | val v :: bin => some (v, bin)
    | _ => none
  get_put := by simp

def kvPtrCodec : Codec (Cell Val) (KVPairs Val) where
  put p := [kvPtr p]
  get
    | kvPtr p :: bin => some (p, bin)
    | _ => none
  get_put := by simp

def chunkPtrCodec : Codec (Cell Val) (ChunkPairs Val) where
  put p := [chunkPtr p]
  get
    | chunkPtr p :: bin => some (p, bin)
    | _ => none
  get_put := by simp

/-- `std::vector<size_t>` and `SArray<Key>`. -/
def words : Codec (Cell Val) (List ℕ) := Codec.vec wordCodec wordCodec

/-- `std::vector<Val>` and `SArray<Val>`. -/
def vals : Codec (Cell Val) (List Val) := Codec.vec wordCodec valCodec

@[simp] theorem words_put_ne_nil (ks : List ℕ) : (words : Codec (Cell Val) _).put ks ≠ [] := by
  simp [words, Codec.vec, wordCodec]

end Cell

/-- A request as a server sees it: the header after `kv_id`, and the body that is
left in the stream. -/
structure Request (Val : Type) where
  ts : ℕ
  cmd : ℕ
  push : Bool
  src : ℕ
  bin : BinStream Val
  deriving DecidableEq, Repr

/-- The stream a worker sends for a request. -/
def Request.toBin (kvId : ℕ) (r : Request Val) : BinStream Val :=
  Cell.nat.put kvId ++ Cell.nat.put r.ts ++ Cell.nat.put r.cmd ++ Cell.boolCodec.put r.push ++
    Cell.nat.put r.src ++ r.bin

/-- What `Receiving` and the head of `Process` read off a stream. -/
def readRequest (bin : BinStream Val) : Option (ℕ × Request Val) := do
  let (kvId, bin) ← Cell.nat.get bin
  let (ts, bin) ← Cell.nat.get bin
  let (cmd, bin) ← Cell.nat.get bin
  let (push, bin) ← Cell.boolCodec.get bin
  let (src, bin) ← Cell.nat.get bin
  some (kvId, ⟨ts, cmd, push, src, bin⟩)

@[simp] theorem readRequest_toBin (kvId : ℕ) (r : Request Val) :
    readRequest (r.toBin kvId) = some (kvId, r) := by
  simp [readRequest, Request.toBin, List.append_assoc]

/-- The arguments of `ServerBase::Response`; `minClock` is `-1` when the caller gives
none. -/
structure Reply (Val : Type) where
  kvId : ℕ
  ts : ℕ
  cmd : ℕ
  push : Bool
  src : ℕ
  res : KVPairs Val
  minClock : ℤ := -1
  deriving DecidableEq, Repr

/-- What tells requests apart: sender and timestamp. -/
def Request.key (r : Request Val) : ℕ × ℕ := (r.src, r.ts)

/-- The request a reply answers. -/
def Reply.key (r : Reply Val) : ℕ × ℕ := (r.src, r.ts)

/-- `ServerBase::Response`: the stream sent back to `src`.  The reply to a local
zero-copy `Pull` carries a pointer, every other reply its keys and values. -/
def response (r : Reply Val) : BinStream Val :=
  Cell.nat.put r.kvId ++ Cell.nat.put r.ts ++ Cell.nat.put r.cmd ++ Cell.boolCodec.put r.push ++
    Cell.nat.put r.src ++
    (if r.cmd = 2 ∧ r.push = false then Cell.kvPtrCodec.put r.res
      else Cell.words.put r.res.keys ++ Cell.vals.put r.res.vals) ++
    (if r.minClock ≠ -1 then Cell.intCodec.put r.minClock else [])

end FlexPS.KVStore
