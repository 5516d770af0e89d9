import FlexPS.Lib.Growable
import FlexPS.Lib.Machine
import FlexPS.Lib.Mutexes
import FlexPS.Lib.Updates
import FlexPS.Lib.Progress
import FlexPS.Lib.RingBuffer
import FlexPS.Lib.Staircase
import FlexPS.Lib.Strides
import FlexPS.Lib.Turns
import FlexPS.Lib.Replicas
import FlexPS.Lib.Parking
import FlexPS.Lib.Codec
import FlexPS.Lib.File
import FlexPS.KVStore.RangeManager
import FlexPS.KVStore.Wire
import FlexPS.KVStore.Storage
import FlexPS.KVStore.ServerBase
import FlexPS.KVStore.BSPServer
import FlexPS.KVStore.SSPServer
import FlexPS.KVStore.SSPEpoch
import FlexPS.KVStore.VectorIndex
import FlexPS.KVStore.SSPDivergence
import FlexPS.KVStore.BSPEpoch
import FlexPS.KVStore.BSPInvariant
import FlexPS.KVStore.BSPIsolation
import FlexPS.KVStore.SSPInvariant
import FlexPS.KVStore.SSPStaleness
import FlexPS.KVStore.Consistency
import FlexPS.KVStore.Stage
import FlexPS.KVStore.StageIsolation
import FlexPS.Lib.Cut
import FlexPS.KVStore.Slice
import FlexPS.KVStore.KVWorker
import FlexPS.KVStore.PullRequest
import FlexPS.KVStore.Reassembly
import FlexPS.KVStore.PullSystem
import FlexPS.KVStore.PullCorrect
import FlexPS.Lib.Lockstep
import FlexPS.Lib.LowerBound
import FlexPS.KVStore.Encoding
import FlexPS.KVStore.ServerLockstep
import FlexPS.KVStore.Exchange
import FlexPS.KVStore.PushRequest
import FlexPS.KVStore.Routing
import FlexPS.KVStore.Completion
import FlexPS.KVStore.Traffic
import FlexPS.KVStore.RoundTrip
import FlexPS.KVStore.CallAndWait
import FlexPS.KVStore.AnyOrder
import FlexPS.KVStore.StorageTwins
import FlexPS.KVStore.ServerFactory
import FlexPS.ML.ChunkBasedMTModel
import FlexPS.ML.ChunkBasedModel
import FlexPS.ML.ChunkBasedFrequencyModel
import FlexPS.ML.ByteChunkFileEditor
import FlexPS.ML.ModelWithCM
import FlexPS.ML.CMContent
import FlexPS.ML.CMSystem
import FlexPS.ML.CacheCapacity
import FlexPS.ML.Replacement
import FlexPS.Lib.ZeroMap
import FlexPS.ML.PSMapWorker
import FlexPS.ML.PSChunkWorker
import FlexPS.ML.PSWorkerV2
import FlexPS.ML.ProcessCache
import FlexPS.ML.FetchProtocol
import FlexPS.ML.FetchWaiting
import FlexPS.KVStore.ControlledCall
import FlexPS.KVStore.Cluster
import FlexPS.KVStore.ClusterSpec
import FlexPS.KVStore.ClusterFetch
import FlexPS.ML.CachedChunk
import FlexPS.ML.ChunkNoneSystem
import FlexPS.ML.Process
import FlexPS.ML.ChunkChunkSystem
import FlexPS.ML.ReadYourWrites
import FlexPS.ML.NoneChunkSystem
import FlexPS.ML.BufferedPushes
import FlexPS.ML.KeyPullSystem
import FlexPS.ML.ConsistencyController
import FlexPS.ML.SSPController
import FlexPS.ML.SharedState
import FlexPS.ML.BSPController
import FlexPS.Lib.Barrier
import FlexPS.Lib.Dict
import FlexPS.Lib.Ledger
import FlexPS.ML.PSBspModel
import FlexPS.ML.PSBspRounds
import FlexPS.ML.PSBspHistory
import FlexPS.ML.PSBspPulls
import FlexPS.ML.PSBspPushes
import FlexPS.ML.PSBspCorrect
import FlexPS.Scheduler.Task
import FlexPS.Scheduler.AvailableWorkers
import FlexPS.Scheduler.Selection
import FlexPS.Scheduler.SelectThreads
import FlexPS.Scheduler.Tracking
import FlexPS.Scheduler.TaskScheduler
import FlexPS.Scheduler.Epochs
import FlexPS.Scheduler.Placement
import FlexPS.Scheduler.SequentialTaskScheduler
import FlexPS.Scheduler.GreedyTaskScheduler
import FlexPS.Scheduler.TaskManager
import FlexPS.Scheduler.PriorityTaskScheduler
import FlexPS.Scheduler.AutoParallelismTaskScheduler
import FlexPS.Scheduler.Settling
import FlexPS.Scheduler.Stalling
import FlexPS.Scheduler.Continuing
import FlexPS.Scheduler.Exhausting
import FlexPS.Scheduler.Exclusive
import FlexPS.Scheduler.SubEpochs
import FlexPS.Scheduler.SearchSpace
import FlexPS.Scheduler.WorkersPerProcess
import FlexPS.Scheduler.Admission
import FlexPS.Scheduler.ClusterManager
import FlexPS.Scheduler.Conservation
import FlexPS.Scheduler.EpochOrder
import FlexPS.Scheduler.PriorityConsistency
import FlexPS.Scheduler.AngryReservation
import FlexPS.Scheduler.Traversal
import FlexPS.Input.AsyncReadBuffer
import FlexPS.Input.AsyncReadParseBuffer
import FlexPS.Input.HDFSBlockAssignerML
import FlexPS.Input.HDFSFileAssignerML
import FlexPS.Core.Task
import FlexPS.Core.Instance
import FlexPS.Worker.TaskStore
import FlexPS.Worker.Whereabouts
import FlexPS.Worker.InstanceRunner
import FlexPS.Worker.MainLoop
import FlexPS.Worker.Booking
import FlexPS.Worker.Agreement
import FlexPS.Worker.Sessions
import FlexPS.Worker.DoubleBooking
import FlexPS.Worker.ModelTransfer
import FlexPS.Worker.HandOver
import FlexPS.Worker.Draining
import FlexPS.Worker.Resting
import FlexPS.Worker.Reporting
import FlexPS.Datastore.DataStore
import FlexPS.Datastore.DataLoadBalance
import FlexPS.Datastore.DataSampler
