import FlexPS.Lib.Parking
import FlexPS.KVStore.ServerBase

/-!
# The BSP server

In the reply phase the server answers the pulls of iteration `pull_iter_` and parks
pushes; once all workers have pulled it applies the parked pushes of `push_iter_` and
takes pushes, parking pulls, until all workers have pushed.  A request of a later
iteration is parked in either phase, because a worker that has nothing to ask of this
server sends empty requests and runs ahead.

The phase switch is tested only after a request that was handled at once, never after
a buffer was released.

## Main definitions

* `BSPServer` — the fields of the class.
* `BSPServer.handleInit`, `handlePush`, `handlePull` — the branches of `Process`.
* `BSPServer.process` — `Process` on a whole request stream.
-/

namespace FlexPS.KVStore

open Lib

variable {S Val : Type}

/-- `BSPServer<Val, StorageT>`. -/
structure BSPServer (S Val : Type) where
  numWorkers : ℤ
  pushIter : ℕ
  pushCount : List ℕ
  pushProgress : List ℕ
  blockedPushes : List (List (Blocked Val))
  pullIter : ℕ
  pullCount : List ℕ
  pullProgress : List ℕ
  blockedPulls : List (List (Blocked Val))
  initReplyPhase : Bool
  replyPhase : Bool
  isVector : Bool
  isAssign : Bool
  store : S
  serverId : ℕ
  initCount : ℕ

namespace BSPServer

/-- The constructor, with `init_reply_phase = true` as the factory leaves it. -/
def new (serverId : ℕ) (numWorkers : ℤ) (store : S) (isVector isAssign : Bool) :
    BSPServer S Val where
  numWorkers := numWorkers
  pushIter := 0
  pushCount := []
  pushProgress := []
  blockedPushes := []
  pullIter := 0
  pullCount := []
  pullProgress := []
  blockedPulls := []
  initReplyPhase := true
  replyPhase := true
  isVector := isVector
  isAssign := isAssign
  store := store
  serverId := serverId
  initCount := 0

/-- What the first `InitForConsistencyControl` of an epoch resets. -/
def reset (srv : BSPServer S Val) (nextNumWorkers : ℤ) : BSPServer S Val :=
  { srv with
    pushIter := 0
    pullIter := 0
    pushCount := []
    pullCount := []
    pushProgress := []
    pullProgress := []
    blockedPulls := []
    blockedPushes := []
    replyPhase := srv.initReplyPhase
    numWorkers := if nextNumWorkers ≠ -1 then nextNumWorkers else srv.numWorkers }

/-- Count one `InitForConsistencyControl` and reply to it. -/
def countInit (kvId : ℕ) (srv : BSPServer S Val) (r : Request Val) :
    BSPServer S Val × List (Reply Val) :=
  let initCount := srv.initCount + 1
  ({ srv with initCount := if (initCount : ℤ) = srv.numWorkers then 0 else initCount },
    [{ kvId, ts := r.ts, cmd := r.cmd, push := r.push, src := r.src, res := .empty }])

/-- The branch for command 4.  Only the first message of an epoch reads its body. -/
def handleInit (kvId : ℕ) (srv : BSPServer S Val) (r : Request Val) :
    Option (BSPServer S Val × List (Reply Val)) :=
  if srv.initCount = 0 then do
    let (nextNumWorkers, _) ← Cell.intCodec.get r.bin
    some ((srv.reset nextNumWorkers).countInit kvId r)
  else some (srv.countInit kvId r)

variable [StorageT S Val]

/-- All pushes of an iteration are in: answer the parked pulls of the next one and
enter the reply phase. -/
def releasePulls (t : RangeTable) (kvId : ℕ) (srv : BSPServer S Val) :
    Option (BSPServer S Val × List (Reply Val)) := do
  let (store, released) ← run (answerPull t kvId srv.serverId srv.isVector) srv.store
    (slot srv.blockedPulls srv.pullIter)
  some ({ srv with
    store
    blockedPulls := clearAt srv.blockedPulls srv.pullIter
    replyPhase := true
    pushIter := srv.pushIter + 1 }, released)

/-- All pulls of an iteration are in: apply its parked pushes and leave the reply
phase. -/
def releasePushes [Add Val] (t : RangeTable) (kvId : ℕ) (srv : BSPServer S Val) :
    Option (BSPServer S Val × List (Reply Val)) := do
  let (store, released) ← run (applyPush t kvId srv.serverId srv.isVector srv.isAssign) srv.store
    (slot srv.blockedPushes srv.pushIter)
  some ({ srv with
    store
    blockedPushes := clearAt srv.blockedPushes srv.pushIter
    replyPhase := false
    pullIter := srv.pullIter + 1 }, released)

/-- The branch for a push under consistency control. -/
def handlePush [Add Val] (t : RangeTable) (kvId : ℕ) (srv : BSPServer S Val) (r : Request Val) :
    Option (BSPServer S Val × List (Reply Val)) :=
  let progress := slot srv.pushProgress r.src
  let srv := { srv with
    pushCount := modifyAt srv.pushCount progress (· + 1)
    pushProgress := modifyAt srv.pushProgress r.src (· + 1) }
  if srv.replyPhase || srv.pushIter != progress then
    -- in the reply phase, or the progress is too advanced
    some ({ srv with blockedPushes := park srv.blockedPushes progress r.entry }, [])
  else do
    let (store, out) ← applyPush t kvId srv.serverId srv.isVector srv.isAssign srv.store r.entry
    let srv := { srv with store }
    if ((slot srv.pushCount srv.pushIter : ℕ) : ℤ) = srv.numWorkers then do
      let (srv, released) ← srv.releasePulls t kvId
      some (srv, out ++ released)
    else some (srv, out)

/-- The branch for a pull under consistency control. -/
def handlePull [Add Val] (t : RangeTable) (kvId : ℕ) (srv : BSPServer S Val) (r : Request Val) :
    Option (BSPServer S Val × List (Reply Val)) :=
  let progress := slot srv.pullProgress r.src
  let srv := { srv with
    pullCount := modifyAt srv.pullCount progress (· + 1)
    pullProgress := modifyAt srv.pullProgress r.src (· + 1) }
  if !srv.replyPhase || srv.pullIter != progress then
    some ({ srv with blockedPulls := park srv.blockedPulls progress r.entry }, [])
  else do
    let (store, out) ← answerPull t kvId srv.serverId srv.isVector srv.store r.entry
    let srv := { srv with store }
    if ((slot srv.pullCount srv.pullIter : ℕ) : ℤ) = srv.numWorkers then do
      let (srv, released) ← srv.releasePushes t kvId
      some (srv, out ++ released)
    else some (srv, out)

/-- `BSPServer::Process` after the header. -/
def handle [Add Val] (t : RangeTable) (kvId : ℕ) (srv : BSPServer S Val) (r : Request Val) :
    Option (BSPServer S Val × List (Reply Val)) :=
  if r.cmd = 4 then srv.handleInit kvId r
  else if consistencyControlOffMagic ≤ r.cmd then do
    let (store, out) ← serveDirect t kvId srv.serverId srv.isVector srv.isAssign srv.store r
    some ({ srv with store }, out)
  else if r.push then srv.handlePush t kvId r
  else srv.handlePull t kvId r

/-- `BSPServer::Process` on the stream a worker sent. -/
def process [Add Val] (t : RangeTable) (srv : BSPServer S Val) (bin : BinStream Val) :
    Option (BSPServer S Val × List (Reply Val)) := do
  let (kvId, r) ← readRequest bin
  srv.handle t kvId r

@[simp] theorem process_toBin [Add Val] (t : RangeTable) (kvId : ℕ) (srv : BSPServer S Val)
    (r : Request Val) : process t srv (r.toBin kvId) = srv.handle t kvId r := by
  simp [process]

end BSPServer

end FlexPS.KVStore
