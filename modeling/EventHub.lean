import EventHub.Library.Machine
import EventHub.Hashtbl.Table
import EventHub.Library.Doubling
import EventHub.Hashtbl.Remake
import EventHub.Library.Transition
import EventHub.Hashtbl.Lookup
import EventHub.Hashtbl.Rekey
import EventHub.Hashtbl.Order
import EventHub.Hashtbl.Strings
import EventHub.Hashtbl.Growth
import EventHub.Library.Agenda
import EventHub.Library.Chain
import EventHub.Library.Circular
import EventHub.Library.Fifo
import EventHub.Library.Links
import EventHub.Library.Nearest
import EventHub.Library.Pieces
import EventHub.Library.Placing
import EventHub.Library.Suffix
import EventHub.Library.Tiling
import EventHub.Memory.Heap
import EventHub.Memory.Align
import EventHub.Memory.FreeList
import EventHub.Memory.Alloc
import EventHub.Memory.HeapInvariant
import EventHub.Memory.FirstFit
import EventHub.Memory.Release
import EventHub.Memory.Register
import EventHub.Memory.Pool
import EventHub.Memory.PoolRuns
import EventHub.Llist.Lists
import EventHub.Llist.Sequences
import EventHub.RbTree.Tree
import EventHub.RbTree.Delete
import EventHub.RbTree.Insert
import EventHub.RbTree.Pointers
import EventHub.RbTree.Pieces
import EventHub.RbTree.InsertMemory
import EventHub.RbTree.Adding
import EventHub.RbTree.EraseMemory
import EventHub.RbTree.Removing
import EventHub.RbTree.Sequences
import EventHub.Ringbuf.Buffer
import EventHub.Ringbuf.Concurrent
import EventHub.Ringbuf.Queue
import EventHub.Ringbuf.Draft
import EventHub.Ringbuf.Peek
import EventHub.Ringbuf.ConcurrentSafety
import EventHub.Timer.Service
import EventHub.Timer.Loop
import EventHub.Timer.Runs
import EventHub.Timer.Uptime
import EventHub.Timer.Punctual
import EventHub.Timer.Schedule
import EventHub.Library.Rings
import EventHub.Library.Turns
import EventHub.Library.Edits
import EventHub.Kernel.Codes
import EventHub.Kernel.Sched
import EventHub.Kernel.Lists
import EventHub.Event.Receptors
import EventHub.Event.Wires
import EventHub.Kernel.Machine
import EventHub.Kernel.Signals
import EventHub.Kernel.Invariant
import EventHub.Kernel.Waits
import EventHub.Kernel.Switches
import EventHub.Kernel.Runs
import EventHub.Kernel.Wakeup
import EventHub.Kernel.Polling
import EventHub.Kernel.View
import EventHub.Kernel.Refinement
import EventHub.Kernel.Simulation
import EventHub.Kernel.Scheduling
import EventHub.Kernel.FirstInFirstOut
import EventHub.Kernel.Reclaim
import EventHub.Kernel.Frames
import EventHub.Kernel.Flow
import EventHub.Kernel.Wiring
import EventHub.Kernel.Cleaned
import EventHub.Kernel.Timeouts
import EventHub.Kernel.Timed
import EventHub.Kernel.Deadlines
import EventHub.Core.Idle
import EventHub.Sync.Handover
import EventHub.Sync.Sem
import EventHub.Sync.Mutex
import EventHub.Sync.Strand
import EventHub.Sync.Flags
import EventHub.Sync.Delivery
import EventHub.Sync.Parked
import EventHub.Sync.Hosted
import EventHub.Event.Epoll
import EventHub.Event.Due
import EventHub.Event.Delivery
import EventHub.Core.Startup
import EventHub.Core.PollTasks
import EventHub.Core.Lifetimes
import EventHub.Core.Joins
import EventHub.EventCb.Slots
import EventHub.EventCb.Wiring
import EventHub.EventCb.Triggers
import EventHub.EventCb.Steps
import EventHub.EventCb.Bookkeeping
import EventHub.EventCb.Runs
import EventHub.EventCb.Cleaning
import EventHub.EventCb.Connect
import EventHub.EventCb.Dispatch
import EventHub.Formatio.Float
import EventHub.Formatio.Convert
import EventHub.Formatio.Numbers
import EventHub.Formatio.Arrays
import EventHub.Formatio.Rounding
import EventHub.Formatio.Scan
import EventHub.Formatio.Streams
import EventHub.Formatio.Length
import EventHub.Formatio.Bounded
import EventHub.Formatio.Calls
import EventHub.Core.Conversions
import EventHub.Coroutine.CortexM3
import EventHub.Coroutine.LinuxX64
import EventHub.Coroutine.MacosArm64
import EventHub.Coroutine.Riscv32
import EventHub.Coroutine.Tasks
import EventHub.EhList.Lists
import EventHub.EhList.Sequences
import EventHub.Event.Rotation
import EventHub.Event.Teardown
import EventHub.EventCb.Destruct
import EventHub.Kernel.Overtaking
import EventHub.Kernel.Sleep
import EventHub.Library.Assembly
import EventHub.Library.Bytes
import EventHub.Library.Contexts
import EventHub.Library.Drain
import EventHub.Library.Laps
import EventHub.Library.Precedence
import EventHub.Library.Splices
import EventHub.RbTree.Matching
import EventHub.RbTree.Postorder
import EventHub.RbTree.Reverse
