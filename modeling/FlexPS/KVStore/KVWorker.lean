import FlexPS.Lib.Growable
import FlexPS.KVStore.Slice
import FlexPS.KVStore.ServerBase
import Mathlib.Data.List.Sort
import Mathlib.Logic.Function.Basic

/-!
# The worker side

A call of `KVWorker` slices its request over the servers, takes a timestamp that waits
for one reply per non-empty slice, registers a callback and sends the slices.  The
receiving thread records every reply under its store and timestamp; the reply that
completes the count runs the callback, which sorts the recorded replies by first key and
copies them out.  Only then is the reply counted, and only the count lets `Wait` return.

## Main definitions

* `Flags`, `send_`, `sendChunks_` — the encodings of a request.
* `Callback.run` — what the callbacks copy where.
* `KVWorker` and its operations — `newRequest`, `uniqueProcess`, `receive`, `countResponse`.
* `Call`, `issue` — the calls `Push`, `Pull`, `PushChunks`, `PullChunks` and
  `PullChunksWithMinClock`.
-/

namespace FlexPS.KVStore

open Lib

variable {Val : Type}

/-! ## Sending -/

/-- `KVWorker::local_zero_copy_magic_`. -/
def localZeroCopyMagic : ℕ := 2

/-- What a caller may choose for one call, and which servers share its process. -/
structure Flags where
  sendAll : Bool
  localZeroCopy : Bool
  consistencyControl : Bool
  isLocal : ℕ → Bool

/-- A pointer is sent instead of the data. -/
def Flags.zeroCopy (f : Flags) (server : ℕ) : Bool := f.localZeroCopy && f.isLocal server

/-- The command code: the magic numbers are added up. -/
def Flags.cmd (f : Flags) (cmd : ℕ) (withMinClock : Bool) (server : ℕ) : ℕ :=
  cmd + (if f.zeroCopy server then localZeroCopyMagic else 0) +
    (if withMinClock then withMinClockMagic else 0) +
    (if f.consistencyControl then 0 else consistencyControlOffMagic)

/-- The body of a non-empty slice of `Push` or `Pull`. -/
def sliceBody (push zeroCopy : Bool) (kvs : KVPairs Val) : BinStream Val :=
  if zeroCopy then Cell.kvPtrCodec.put kvs
  else if push then Cell.words.put kvs.keys ++ Cell.vals.put kvs.vals
  else Cell.words.put kvs.keys

/-- `KVWorker::Send_`: the message for every server, or none where an empty slice is not
sent. -/
def send_ (src ts : ℕ) (push : Bool) (sliced : List (Bool × KVPairs Val)) (f : Flags) :
    List (Option (Request Val)) :=
  sliced.zipIdx.map fun ((nonempty, kvs), i) =>
    if !f.sendAll && !nonempty then none
    else some
      { ts, cmd := f.cmd 0 false i, push, src
        bin := if nonempty then sliceBody push (f.zeroCopy i) kvs else [] }

/-- The body of a non-empty slice of `PushChunks` or `PullChunks`. -/
def chunkBody (push zeroCopy : Bool) (chunkIds : List ℕ) (chunks : List (List Val)) :
    BinStream Val :=
  if zeroCopy then Cell.chunkPtrCodec.put (chunkIds, if push then chunks else [])
  else Cell.words.put chunkIds ++ if push then chunks.flatMap Cell.vals.put else []

/-- `KVWorker::SendChunks_`.  A min clock without consistency control throws. -/
def sendChunks_ (src ts : ℕ) (push : Bool) (chunkIds : List ℕ) (chunks : List (List Val))
    (pos : List ℕ) (f : Flags) (withMinClock : Bool) : Option (List (Option (Request Val))) :=
  if withMinClock && !f.consistencyControl then none
  else some ((pieces pos).zipIdx.map fun ((a, b), i) =>
    if !f.sendAll && a == b then none
    else some
      { ts, cmd := f.cmd 1 withMinClock i, push, src
        bin := if a != b
          then chunkBody push (f.zeroCopy i) (segment chunkIds a b) (segment chunks a b)
          else [] })

/-! ## Callbacks -/

/-- A registered callback and the memory it fills. -/
inductive Callback (Val : Type) where
  | pull (keys : List ℕ)
  | pullChunks (chunkIds : List ℕ) (chunks : List (List Val))
  | pullChunksWithMinClock (chunkIds : List ℕ) (chunks : List (List Val))
  deriving DecidableEq, Repr

/-- `RecvKVPairs` and `RecvKVPairsWithMinClock`. -/
inductive Recv (Val : Type) where
  | kvs (recv : List (KVPairs Val))
  | withMinClock (recv : List (KVPairs Val × ℤ))
  deriving DecidableEq, Repr

/-- What the memory of a call holds after its callback. -/
inductive Dest (Val : Type) where
  | vals (vals : List Val)
  | chunks (chunks : List (List Val))
  | chunksWithMinClock (chunks : List (List Val)) (minClock : ℤ)
  deriving DecidableEq, Repr

/-- `keys.front()` of a reply; replies without keys are not recorded. -/
def front (kvs : KVPairs Val) : ℕ := kvs.keys.headD 0

/-- `std::sort` by first key.  The first keys of the replies to one request differ if its keys
are sorted, so the result does not depend on the algorithm then. -/
def sortByFront {α : Type} (f : α → ℕ) (recv : List α) : List α :=
  recv.insertionSort fun a b => f a ≤ f b

/-- The loop over the chunks of one reply; `start` is the offset in its values and `idx`
the chunk to fill.  Reading past the values or filling past the chunks is undefined. -/
def copyChunks (chunkSize chunkNum : ℕ) (vals : List Val) :
    List ℕ → ℕ → ℕ → List (List Val) → Option (ℕ × List (List Val))
  | [], _, idx, chunks => some (idx, chunks)
  | c :: cs, start, idx, chunks =>
      let size := if c = chunkNum - 1 then vals.length - start else chunkSize
      if start + size ≤ vals.length ∧ idx < chunks.length then
        copyChunks chunkSize chunkNum vals cs (start + chunkSize) (idx + 1)
          (chunks.set idx ((vals.drop start).take size))
      else none

/-- The loop over the replies. -/
def fillChunks (chunkSize chunkNum : ℕ) :
    List (KVPairs Val) → ℕ → List (List Val) → Option (List (List Val))
  | [], _, chunks => some chunks
  | kvs :: rest, idx, chunks => do
      let (idx, chunks) ← copyChunks chunkSize chunkNum kvs.vals kvs.keys 0 idx chunks
      fillChunks chunkSize chunkNum rest idx chunks

/-- The callbacks of `Pull_`, `PullChunks` and `PullChunksWithMinClock`.  The last one
starts its minimum at `std::numeric_limits<int>::max()`. -/
def Callback.run (t : RangeTable) : Callback Val → Recv Val → Option (Dest Val)
  | .pull _, .kvs recv => some (.vals ((sortByFront front recv).flatMap KVPairs.vals))
  | .pullChunks _ chunks, .kvs recv =>
      (fillChunks t.chunkSize t.chunkNum (sortByFront front recv) 0 chunks).map .chunks
  | .pullChunksWithMinClock _ chunks, .withMinClock recv =>
      let recv := sortByFront (fun s => front s.1) recv
      (fillChunks t.chunkSize t.chunkNum (recv.map Prod.fst) 0 chunks).map fun chunks =>
        .chunksWithMinClock chunks (recv.foldl (fun m s => if s.2 < m then s.2 else m) (2 ^ 31 - 1))
  | _, _ => none

/-! ## The worker -/

/-- `KVWorker` with its `WorkerCustomer`.  `finished` lists the callbacks that have run and
what they left in memory. -/
structure KVWorker (Val : Type) where
  tracker : List (List (ℕ × ℕ))
  recvKvs : ℕ × ℕ → Option (Recv Val)
  callbacks : ℕ × ℕ → Option (Callback Val)
  finished : List ((ℕ × ℕ) × Dest Val)

namespace KVWorker

/-- A new worker. -/
def new : KVWorker Val := ⟨[], fun _ => none, fun _ => none, []⟩

/-- The tracker entry of a request: replies expected and replies counted. -/
def entry (w : KVWorker Val) (key : ℕ × ℕ) : Option (ℕ × ℕ) := (slot w.tracker key.1)[key.2]?

/-- `WorkerCustomer::NewRequest`. -/
def newRequest (w : KVWorker Val) (kvId numResponses : ℕ) : KVWorker Val × ℕ :=
  ({ w with tracker := modifyAt w.tracker kvId fun l => l ++ [(numResponses, 0)] },
    (slot w.tracker kvId).length)

/-- `KVWorker::AddCallback`. -/
def addCallback (w : KVWorker Val) (key : ℕ × ℕ) (cb : Callback Val) : KVWorker Val :=
  { w with callbacks := Function.update w.callbacks key (some cb) }

/-- `KVWorker::RunCallback`; the callback reads the recorded replies and erases them. -/
def runCallback (tables : ℕ → RangeTable) (w : KVWorker Val) (key : ℕ × ℕ) :
    Option (KVWorker Val) :=
  match w.callbacks key with
  | none => some w
  | some cb => do
      let recv ← w.recvKvs key
      let dest ← cb.run (tables key.1) recv
      some { w with
        recvKvs := Function.update w.recvKvs key none
        callbacks := Function.update w.callbacks key none
        finished := w.finished ++ [(key, dest)] }

/-- `update_kvs`; only non-empty replies are kept. -/
def updateKvs (w : KVWorker Val) (key : ℕ × ℕ) (kvs : KVPairs Val) : Option (KVWorker Val) :=
  match (w.recvKvs key).getD (.kvs []) with
  | .kvs recv =>
      let recv := if kvs.keys.isEmpty then recv else recv ++ [kvs]
      some { w with recvKvs := Function.update w.recvKvs key (some (.kvs recv)) }
  | .withMinClock _ => none

/-- `update_kvs_with_min_clock`. -/
def updateKvsWithMinClock (w : KVWorker Val) (key : ℕ × ℕ) (kvs : KVPairs Val × ℤ) :
    Option (KVWorker Val) :=
  match (w.recvKvs key).getD (.withMinClock []) with
  | .withMinClock recv =>
      let recv := if kvs.1.keys.isEmpty then recv else recv ++ [kvs]
      some { w with recvKvs := Function.update w.recvKvs key (some (.withMinClock recv)) }
  | .kvs _ => none

/-- What a reply carries for the worker: nothing to record, key-value pairs, or these with
a clock. -/
def decodeReply (bin : BinStream Val) : Option (Option (KVPairs Val × Option ℤ)) := do
  let (cmd, bin) ← Cell.nat.get bin
  let (push, bin) ← Cell.boolCodec.get bin
  let (_, bin) ← Cell.nat.get bin
  if push then some none
  else
    let cmd := cmd % consistencyControlOffMagic
    if cmd = 2 then do
      let (kvs, _) ← Cell.kvPtrCodec.get bin
      some (some (kvs, none))
    else if cmd = 13 ∨ cmd = 11 then do
      let (keys, bin) ← Cell.words.get bin
      let (vals, bin) ← Cell.vals.get bin
      let (minClock, _) ← Cell.intCodec.get bin
      some (some (⟨keys, vals⟩, some minClock))
    else do
      let (keys, bin) ← Cell.words.get bin
      let (vals, _) ← Cell.vals.get bin
      some (some (⟨keys, vals⟩, none))

/-- Record the content of a reply. -/
def record (w : KVWorker Val) (key : ℕ × ℕ) : Option (KVPairs Val × Option ℤ) →
    Option (KVWorker Val)
  | none => some w
  | some (kvs, none) => w.updateKvs key kvs
  | some (kvs, some minClock) => w.updateKvsWithMinClock key (kvs, minClock)

/-- `KVWorker::UniqueProcess`. -/
def uniqueProcess (tables : ℕ → RangeTable) (w : KVWorker Val) (key : ℕ × ℕ)
    (bin : BinStream Val) (runCallback : Bool) : Option (KVWorker Val) := do
  let content ← decodeReply bin
  let w ← w.record key content
  if runCallback then w.runCallback tables key else some w

/-- The body of `WorkerCustomer::Receiving` up to the return of `recv_handle_`: the request
the reply belongs to, and the worker. -/
def receive (tables : ℕ → RangeTable) (w : KVWorker Val) (bin : BinStream Val) :
    Option ((ℕ × ℕ) × KVWorker Val) := do
  let (kvId, bin) ← Cell.nat.get bin
  let (ts, bin) ← Cell.nat.get bin
  let (expected, counted) ← w.entry (kvId, ts)
  let w ← w.uniqueProcess tables (kvId, ts) bin (counted + 1 == expected)
  some ((kvId, ts), w)

/-- The rest of the body: the reply is counted. -/
def countResponse (w : KVWorker Val) (key : ℕ × ℕ) : KVWorker Val :=
  { w with tracker := modifyAt w.tracker key.1 fun l => l.modify key.2 fun e => (e.1, e.2 + 1) }

/-- `WaitRequest` returns. -/
def Returns (w : KVWorker Val) (key : ℕ × ℕ) : Prop := ∃ n, w.entry key = some (n, n)

end KVWorker

/-! ## Calls -/

/-- The calls of a worker, with the memory they read or fill. -/
inductive Call (Val : Type) where
  | push (keys : List ℕ) (vals : List Val)
  | pull (keys : List ℕ)
  | pushChunks (chunkIds : List ℕ) (chunks : List (List Val))
  | pullChunks (chunkIds : List ℕ) (chunks : List (List Val))
  | pullChunksWithMinClock (chunkIds : List ℕ) (chunks : List (List Val))
  deriving DecidableEq, Repr

namespace Call

/-- Whether the call is a push. -/
def isPush : Call Val → Bool
  | push _ _ => true
  | pushChunks _ _ => true
  | _ => false

/-- The callback a call registers. -/
def callback : Call Val → Option (Callback Val)
  | pull keys => some (.pull keys)
  | pullChunks chunkIds chunks => some (.pullChunks chunkIds chunks)
  | pullChunksWithMinClock chunkIds chunks => some (.pullChunksWithMinClock chunkIds chunks)
  | _ => none

/-- The slices of a call: how many replies it waits for, and the messages once it has a
timestamp. -/
def slices (t : RangeTable) (src : ℕ) (f : Flags) :
    Call Val → Option (ℕ × (ℕ → Option (List (Option (Request Val)))))
  | push keys vals =>
      let sliced := slice_ ⟨keys, vals⟩ t.serverKeyRanges
      some (sliced.countP Prod.fst, fun ts => some (send_ src ts true sliced f))
  | pull keys =>
      let sliced := slice_ ⟨keys, []⟩ t.serverKeyRanges
      some (sliced.countP Prod.fst, fun ts => some (send_ src ts false sliced f))
  | pushChunks chunkIds chunks => do
      if chunkIds.length ≠ chunks.length then none
      else
        let pos ← partitionChunks_ t chunkIds
        some (waitNum pos, fun ts => sendChunks_ src ts true chunkIds chunks pos f false)
  | pullChunks chunkIds chunks => do
      if chunkIds.length ≠ chunks.length then none
      else
        let pos ← partitionChunks_ t chunkIds
        some (waitNum pos, fun ts => sendChunks_ src ts false chunkIds [] pos f false)
  | pullChunksWithMinClock chunkIds chunks => do
      if chunkIds.length ≠ chunks.length then none
      else
        let pos ← partitionChunks_ t chunkIds
        some (waitNum pos, fun ts =>
          sendChunks_ src ts false chunkIds [] pos { f with consistencyControl := true } true)

/-- A call: slice, get a timestamp, register the callback, send.  The result is the
timestamp, the worker and a message or nothing for every server. -/
def issue (tables : ℕ → RangeTable) (src : ℕ) (w : KVWorker Val) (kvId : ℕ) (call : Call Val)
    (f : Flags) : Option (ℕ × KVWorker Val × List (Option (Request Val))) := do
  let (wait, messages) ← call.slices (tables kvId) src f
  let (w, ts) := w.newRequest kvId wait
  let w := match call.callback with
    | some cb => w.addCallback (kvId, ts) cb
    | none => w
  let messages ← messages ts
  some (ts, w, messages)

end Call

end FlexPS.KVStore
