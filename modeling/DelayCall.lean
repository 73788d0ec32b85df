import DelayCall.Go.Chan
import DelayCall.Go.Map
import DelayCall.Go.Slice
import DelayCall.Model.Chan
import DelayCall.Model.Machine
import DelayCall.Model.Transition
import DelayCall.Model.Monitor
import DelayCall.Invariants.Ownership
import DelayCall.Invariants.TableLog
import DelayCall.Invariants.Conservation
import DelayCall.Invariants.Order
import DelayCall.Deadlock.WaitsFor
import DelayCall.Deadlock.Jam
import DelayCall.Deadlock.Progress
import DelayCall.Deadlock.Drain
import DelayCall.Lru.Cache
import DelayCall.Lru.Spec
import DelayCall.Lru.Links
import DelayCall.Lru.Refinement
import DelayCall.Lru.Run
import DelayCall.Perf.ParallelSum
import DelayCall.Perf.QuickSort
import DelayCall.Pipeline.Reverse
import DelayCall.Pipeline.Chain
import DelayCall.Pipeline.Runs
import DelayCall.Pipeline.Stages
import DelayCall.WorkerPool.Pool
import DelayCall.WorkerPool.Transition
import DelayCall.WorkerPool.Jobs
import DelayCall.WorkerPool.Safety
import DelayCall.WorkerPool.Progress
import DelayCall.WorkerPool.Termination
import DelayCall.Perf.BubbleSort
import DelayCall.Perf.SliceGrowth
import DelayCall.Observer.Dispatcher
import DelayCall.Observer.Registry
import DelayCall.Observer.Snapshot
import DelayCall.Observer.Race
import DelayCall.TcpEcho.Scan
import DelayCall.TcpEcho.Session
import DelayCall.TcpEcho.Replies
import DelayCall.TcpEcho.Lag
