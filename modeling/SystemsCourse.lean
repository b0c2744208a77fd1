import SystemsCourse.Lib.Frames
import SystemsCourse.Lib.Stream
import SystemsCourse.Lib.Strip
import SystemsCourse.Lib.KeyLog
import SystemsCourse.Lib.Greedy
import SystemsCourse.Lib.Stable
import SystemsCourse.Lib.OrdMap
import SystemsCourse.Lib.Linearizable
import SystemsCourse.Lib.Family
import SystemsCourse.Lib.Actions
import SystemsCourse.Lib.Threads
import SystemsCourse.Lib.Locks
import SystemsCourse.Lib.Views
import SystemsCourse.Lib.Replicas
import SystemsCourse.Lib.Counting
import SystemsCourse.Lib.Reading
import SystemsCourse.Lib.Decimal
import SystemsCourse.Lib.Getline
import SystemsCourse.Lib.Words
import SystemsCourse.Lib.XorShift
import SystemsCourse.Lib.Rank
import SystemsCourse.Lib.Resp
import SystemsCourse.NetForge.Protocol
import SystemsCourse.NetForge.Framing
import SystemsCourse.NetForge.Command
import SystemsCourse.NetForge.Store
import SystemsCourse.NetForge.Wal
import SystemsCourse.NetForge.Record
import SystemsCourse.NetForge.Recovery
import SystemsCourse.NetForge.Server
import SystemsCourse.NetForge.Session
import SystemsCourse.NetForge.Durability
import SystemsCourse.NetForge.Concurrent
import SystemsCourse.NetForge.Locking
import SystemsCourse.NetForge.Restarts
import SystemsCourse.NetForge.Responses
import SystemsCourse.NetForge.Request
import SystemsCourse.NetForge.Serving
import SystemsCourse.NetForge.FailStop
import SystemsCourse.NetForge.BlockingQueue
import SystemsCourse.NetForge.Wakeup
import SystemsCourse.NetForge.TaskLedger
import SystemsCourse.NetForge.ThreadPool
import SystemsCourse.NetForge.PoolAccounting
import SystemsCourse.NetForge.Connections
import SystemsCourse.NetForge.Construction
import SystemsCourse.NetForge.Packet
import SystemsCourse.NetForge.Hex
import SystemsCourse.NetForge.Bench
import SystemsCourse.NetForge.BenchRun
import SystemsCourse.NetForge.UniqueFd
import SystemsCourse.Matching.OrderBook
import SystemsCourse.Matching.Loop
import SystemsCourse.Matching.Levels
import SystemsCourse.Matching.Invariant
import SystemsCourse.Matching.Priority
import SystemsCourse.Matching.Ledger
import SystemsCourse.Matching.Cancel
import SystemsCourse.Matching.Splitting
import SystemsCourse.Matching.Relabel
import SystemsCourse.Matching.Mirror
import SystemsCourse.Matching.Engine
import SystemsCourse.Matching.Market
import SystemsCourse.Matching.Sequencing
import SystemsCourse.Matching.Ingress
import SystemsCourse.Matching.Capacity
import SystemsCourse.Matching.IngressInvariant
import SystemsCourse.Matching.IngressSafety
import SystemsCourse.Matching.Spsc
import SystemsCourse.Matching.Progress
import SystemsCourse.Matching.Linearization
import SystemsCourse.Matching.MemoryOrders
import SystemsCourse.Matching.Quiescent
import SystemsCourse.Matching.Retry
import SystemsCourse.Matching.Pipeline
import SystemsCourse.Matching.MockData
import SystemsCourse.Matching.Truncated
import SystemsCourse.Matching.Generator
import SystemsCourse.Matching.Replay
import SystemsCourse.Matching.RedisEdge
import SystemsCourse.Labs.Parallelism
import SystemsCourse.Course.Review
import SystemsCourse.Course.Tabs
