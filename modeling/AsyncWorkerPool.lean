import AsyncWorkerPool.Foundation.Runs
import AsyncWorkerPool.Foundation.Counted
import AsyncWorkerPool.Foundation.Slots
import AsyncWorkerPool.Foundation.Ledger
import AsyncWorkerPool.Foundation.Shares
import AsyncWorkerPool.Foundation.Fair
import AsyncWorkerPool.Foundation.LeadsTo
import AsyncWorkerPool.Foundation.Mutex
import AsyncWorkerPool.Ring.Capacity
import AsyncWorkerPool.Ring.Steps
import AsyncWorkerPool.Ring.System
import AsyncWorkerPool.Ring.Cells
import AsyncWorkerPool.Ring.Protocol
import AsyncWorkerPool.Ring.Raw
import AsyncWorkerPool.Ring.Linear
import AsyncWorkerPool.Ring.Wakeup
import AsyncWorkerPool.Ring.Words
import AsyncWorkerPool.Pool.Types
import AsyncWorkerPool.Pool.State
import AsyncWorkerPool.Pool.Api
import AsyncWorkerPool.Pool.Worker
import AsyncWorkerPool.Pool.Supervisor
import AsyncWorkerPool.Pool.Shutdown
import AsyncWorkerPool.Pool.Destroy
import AsyncWorkerPool.Pool.Machine
import AsyncWorkerPool.Pool.Shards
import AsyncWorkerPool.Pool.Post
import AsyncWorkerPool.Pool.Custody
import AsyncWorkerPool.Pool.Executor
import AsyncWorkerPool.Pool.Sound
import AsyncWorkerPool.Pool.Frames
import AsyncWorkerPool.Pool.Order
import AsyncWorkerPool.Pool.Calls
import AsyncWorkerPool.Pool.Fifo
import AsyncWorkerPool.Pool.Admission
import AsyncWorkerPool.Pool.Routing
import AsyncWorkerPool.Pool.Contents
import AsyncWorkerPool.Pool.Create
import AsyncWorkerPool.Pool.Act
import AsyncWorkerPool.Pool.Intact
import AsyncWorkerPool.Pool.InOrder
import AsyncWorkerPool.Pool.Drops
import AsyncWorkerPool.Pool.Serve
import AsyncWorkerPool.Pool.Deliver
import AsyncWorkerPool.Pool.Guards
import AsyncWorkerPool.Pool.Closure
import AsyncWorkerPool.Pool.Verdict
import AsyncWorkerPool.Pool.Rounds
import AsyncWorkerPool.Pool.Teardown
import AsyncWorkerPool.Pool.Stranded
import AsyncWorkerPool.Pool.Keyed
import AsyncWorkerPool.Pool.Absorb
import AsyncWorkerPool.Pool.Era
import AsyncWorkerPool.Pool.Reclaim
import AsyncWorkerPool.Pool.Publish
import AsyncWorkerPool.Pool.JoinBox
import AsyncWorkerPool.Memory.Arena
import AsyncWorkerPool.Memory.Reset
import AsyncWorkerPool.Memory.Calloc
import AsyncWorkerPool.Memory.FramePool
import AsyncWorkerPool.Pool.Quiet
