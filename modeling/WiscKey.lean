import WiscKey.Bytes
import WiscKey.ValueLog
import WiscKey.LogLayout
import WiscKey.LogHistory
import WiscKey.Evict
import WiscKey.CacheShard
import WiscKey.ShardInvariant
import WiscKey.ShardOps
import WiscKey.ShardHandles
import WiscKey.Database
import WiscKey.ShardQuiet
import WiscKey.CacheQuiet
import WiscKey.CacheHolds
import WiscKey.LogRecords
import WiscKey.Runs
import WiscKey.Representation
import WiscKey.Sequential
import WiscKey.Coherence
import WiscKey.Collect
import WiscKey.CollectJobs
import WiscKey.LogCoverage
import WiscKey.CollectMoving
import WiscKey.CollectSteps
import WiscKey.CollectRun
import WiscKey.CollectProgress
import WiscKey.CollectCorrect
import WiscKey.CollectOverflow
import WiscKey.GarbageCollection
import WiscKey.ShardEntries
import WiscKey.CachePins
import WiscKey.Concurrent
import WiscKey.ConcurrentShared
import WiscKey.ConcurrentGet
import WiscKey.BufferCoverage
import WiscKey.NewDb.Model
import WiscKey.NewDb.Sessions
import WiscKey.NewDb.Collect
import WiscKey.NewDb.CollectSpec
import WiscKey.NewDb.CollectDefined
import WiscKey.NewDb.Refinement
import WiscKey.NewDb.Concurrent
import WiscKey.NewDb.Moves
import WiscKey.NewDb.Numbering
import WiscKey.NewDb.GarbageRace
import WiscKey.NewDb.IndexIntegrity
import WiscKey.NewDb.ReadRace
import WiscKey.CacheTable
import WiscKey.Resurrection
import WiscKey.CrashRecovery
import WiscKey.Iterator
import WiscKey.IteratorQueue
import WiscKey.IteratorScan
import WiscKey.IteratorHistory
import WiscKey.IteratorValues
import WiscKey.IteratorStore
import WiscKey.ShardWords
import WiscKey.ShardRuns
import WiscKey.RingBuffer
import WiscKey.ThreadPool
import WiscKey.PrefetchProtocol
import WiscKey.NewDb.CollectRuns
import WiscKey.NewDb.GarbageKept
import WiscKey.NewDb.FilterFactory
import WiscKey.Attempts
import WiscKey.NewDb.FailedPut
import WiscKey.NewDb.RecordCodec
import WiscKey.OutputString
import WiscKey.DiskRead
import WiscKey.ReadFaults
import WiscKey.WriteFaults
import WiscKey.PutFailure
import WiscKey.LogBounds
import WiscKey.IteratorWrites
import WiscKey.NewDb.GarbageErased
import WiscKey.NewDb.GarbagePercent
import WiscKey.IteratorBounds
import WiscKey.Chains
import WiscKey.HandleTable
import WiscKey.HandleTableMap
import WiscKey.HandleTableDrift
import WiscKey.FrequencyList
import WiscKey.LfuCache
import WiscKey.LfuEviction
import WiscKey.ShardEviction
import WiscKey.Restart
import WiscKey.RestartReads
import WiscKey.Durability
import WiscKey.PoolProgress
import WiscKey.PoolRefinement
import WiscKey.PrefetchRace
import WiscKey.PrefetchCorrect
import WiscKey.ShardLifetime
import WiscKey.LfuHandles
