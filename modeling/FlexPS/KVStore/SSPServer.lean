import FlexPS.Lib.Parking
import FlexPS.KVStore.ServerBase

/-!
# The SSP server

The server counts the pushes of every worker; `min_clock_` is the number of pushes the
slowest worker has sent.  A request of a worker that is more than `staleness_` pushes
ahead is parked at the clock that will release it.  A push that is processed at once may
complete the clock; then the buffers of the next clock are released, pushes before
pulls.

`process_push` reads `clock_count_[min_clock_]` without a bounds check; the model fails
there when the index is out of range.

## Main definitions

* `SSPServer` — the fields of the class.
* `SSPServer.processPush` — `process_push`.
* `SSPServer.process` — `Process` on a whole request stream.
-/

namespace FlexPS.KVStore

open Lib

variable {S Val : Type}

/-- `SSPServer<Val, StorageT>`. -/
structure SSPServer (S Val : Type) where
  numWorkers : ℤ
  staleness : ℕ
  minClock : ℕ
  clockCount : List ℕ
  workerProgress : List ℕ
  blockedPushes : List (List (Blocked Val))
  blockedPulls : List (List (Blocked Val))
  isVector : Bool
  store : S
  serverId : ℕ
  initCount : ℕ

/-- The command of the body of a pull: a pull with min clock adds a magic number. -/
def bodyCmd (cmd : ℕ) : ℕ := if cmd > withMinClockMagic then cmd - withMinClockMagic else cmd

/-- The clock a reply carries: only a pull with min clock gets it. -/
def sentClock (cmd minClock : ℕ) : ℤ := if cmd > withMinClockMagic then minClock else -1

namespace SSPServer

/-- The constructor. -/
def new (serverId : ℕ) (numWorkers : ℤ) (store : S) (isVector : Bool) (staleness : ℕ) :
    SSPServer S Val where
  numWorkers := numWorkers
  staleness := staleness
  minClock := 0
  clockCount := []
  workerProgress := List.replicate numWorkers.toNat 0
  blockedPushes := []
  blockedPulls := []
  isVector := isVector
  store := store
  serverId := serverId
  initCount := 0

/-- What the first `InitForConsistencyControl` of an epoch resets. -/
def reset (srv : SSPServer S Val) (nextNumWorkers : ℤ) : SSPServer S Val :=
  { srv with
    minClock := 0
    workerProgress := []
    clockCount := []
    blockedPulls := []
    blockedPushes := []
    numWorkers := if nextNumWorkers ≠ -1 then nextNumWorkers else srv.numWorkers }

/-- Count one `InitForConsistencyControl` and reply to it. -/
def countInit (kvId : ℕ) (srv : SSPServer S Val) (r : Request Val) :
    SSPServer S Val × List (Reply Val) :=
  let initCount := srv.initCount + 1
  ({ srv with initCount := if (initCount : ℤ) = srv.numWorkers then 0 else initCount },
    [{ kvId, ts := r.ts, cmd := r.cmd, push := r.push, src := r.src, res := .empty }])

/-- The branch for command 4.  Only the first message of an epoch reads its body. -/
def handleInit (kvId : ℕ) (srv : SSPServer S Val) (r : Request Val) :
    Option (SSPServer S Val × List (Reply Val)) :=
  if srv.initCount = 0 then do
    let (nextNumWorkers, _) ← Cell.intCodec.get r.bin
    some ((srv.reset nextNumWorkers).countInit kvId r)
  else some (srv.countInit kvId r)

variable [StorageT S Val]

/-- Answer one pull, with the clock if it asks for it. -/
def answerPull (t : RangeTable) (kvId : ℕ) (serverId : ℕ) (isVector : Bool) (minClock : ℕ)
    (store : S) (b : Blocked Val) : Option (S × List (Reply Val)) :=
  answerPullAs t kvId serverId isVector (bodyCmd b.cmd) (sentClock b.cmd minClock) store b

/-- Release all pushes and then all pulls blocked at `min_clock_`. -/
def releaseClock [Add Val] (t : RangeTable) (kvId : ℕ) (srv : SSPServer S Val) :
    Option (SSPServer S Val × List (Reply Val)) := do
  let blockedPushes := grow srv.blockedPushes (srv.minClock + 1)
  let (store, pushed) ← run (applyPush t kvId srv.serverId srv.isVector false) srv.store
    (slot blockedPushes srv.minClock)
  let blockedPulls := grow srv.blockedPulls (srv.minClock + 1)
  let (store, pulled) ← run (answerPull t kvId srv.serverId srv.isVector srv.minClock) store
    (slot blockedPulls srv.minClock)
  some ({ srv with
    store
    blockedPushes := clearAt blockedPushes srv.minClock
    blockedPulls := clearAt blockedPulls srv.minClock }, pushed ++ pulled)

/-- `process_push`. -/
def processPush [Add Val] (t : RangeTable) (kvId : ℕ) (srv : SSPServer S Val) (b : Blocked Val) :
    Option (SSPServer S Val × List (Reply Val)) := do
  let (store, out) ← applyPush t kvId srv.serverId srv.isVector false srv.store b
  let srv := { srv with store }
  let count : ℕ ← srv.clockCount[srv.minClock]?
  if (count : ℤ) = srv.numWorkers then do
    let (srv, released) ← releaseClock t kvId { srv with minClock := srv.minClock + 1 }
    some (srv, out ++ released)
  else some (srv, out)

/-- The branch for a push under consistency control. -/
def handlePush [Add Val] (t : RangeTable) (kvId : ℕ) (srv : SSPServer S Val) (r : Request Val) :
    Option (SSPServer S Val × List (Reply Val)) :=
  let progress := slot srv.workerProgress r.src
  let srv := { srv with
    clockCount := modifyAt srv.clockCount progress (· + 1)
    workerProgress := modifyAt srv.workerProgress r.src (· + 1) }
  let expectedMinClock : ℤ := progress - srv.staleness
  if expectedMinClock ≤ srv.minClock then srv.processPush t kvId r.entry
  else some ({ srv with
    blockedPushes := park srv.blockedPushes expectedMinClock.toNat r.entry }, [])

/-- The branch for a pull under consistency control. -/
def handlePull (t : RangeTable) (kvId : ℕ) (srv : SSPServer S Val) (r : Request Val) :
    Option (SSPServer S Val × List (Reply Val)) :=
  let srv := { srv with workerProgress := grow srv.workerProgress (r.src + 1) }
  let expectedMinClock : ℤ := (slot srv.workerProgress r.src : ℕ) - srv.staleness
  if expectedMinClock ≤ srv.minClock then do
    let (store, out) ← answerPull t kvId srv.serverId srv.isVector srv.minClock srv.store r.entry
    some ({ srv with store }, out)
  else some ({ srv with
    blockedPulls := park srv.blockedPulls expectedMinClock.toNat r.entry }, [])

/-- `SSPServer::Process` after the header. -/
def handle [Add Val] (t : RangeTable) (kvId : ℕ) (srv : SSPServer S Val) (r : Request Val) :
    Option (SSPServer S Val × List (Reply Val)) :=
  if r.cmd = 4 then srv.handleInit kvId r
  else if consistencyControlOffMagic ≤ r.cmd then do
    let (store, out) ← serveDirect t kvId srv.serverId srv.isVector false srv.store r
    some ({ srv with store }, out)
  else if r.push then srv.handlePush t kvId r
  else srv.handlePull t kvId r

/-- `SSPServer::Process` on the stream a worker sent. -/
def process [Add Val] (t : RangeTable) (srv : SSPServer S Val) (bin : BinStream Val) :
    Option (SSPServer S Val × List (Reply Val)) := do
  let (kvId, r) ← readRequest bin
  srv.handle t kvId r

@[simp] theorem process_toBin [Add Val] (t : RangeTable) (kvId : ℕ) (srv : SSPServer S Val)
    (r : Request Val) : process t srv (r.toBin kvId) = srv.handle t kvId r := by
  simp [process]

end SSPServer

end FlexPS.KVStore
