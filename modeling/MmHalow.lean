import MmHalow.Ctrl.AccessPoint
import MmHalow.Ctrl.Arguments
import MmHalow.Ctrl.Calls
import MmHalow.Ctrl.Channels
import MmHalow.Ctrl.Datapath
import MmHalow.Ctrl.DefaultRoute
import MmHalow.Ctrl.Frame
import MmHalow.Ctrl.Independent
import MmHalow.Ctrl.Linked
import MmHalow.Ctrl.Lwip
import MmHalow.Ctrl.Polls
import MmHalow.Ctrl.ReadBack
import MmHalow.Ctrl.Receive
import MmHalow.Ctrl.Release
import MmHalow.Ctrl.Running
import MmHalow.Ctrl.ScanCache
import MmHalow.Ctrl.ScanWait
import MmHalow.Ctrl.Scannable
import MmHalow.Ctrl.Setters
import MmHalow.Ctrl.Snapshots
import MmHalow.Ctrl.State
import MmHalow.Ctrl.Stations
import MmHalow.Ctrl.Steps
import MmHalow.Ctrl.Stored
import MmHalow.Ctrl.Sweeps
import MmHalow.Ctrl.System
import MmHalow.Ctrl.Teardown
import MmHalow.Ctrl.Transmit
import MmHalow.Hal.Bus
import MmHalow.Hal.Busy
import MmHalow.Lib.Bytes
import MmHalow.Lib.Chain
import MmHalow.Lib.Clock
import MmHalow.Lib.Commit
import MmHalow.Lib.Coop
import MmHalow.Lib.Fifo
import MmHalow.Lib.FirstFit
import MmHalow.Lib.History
import MmHalow.Lib.Keyed
import MmHalow.Lib.Preempt
import MmHalow.Lib.Proc
import MmHalow.Lib.Run
import MmHalow.Lib.Snapshot
import MmHalow.Osal.Critical
import MmHalow.Osal.Heap
import MmHalow.Osal.HeapFrame
import MmHalow.Osal.HeapLife
import MmHalow.Osal.HeapOrder
import MmHalow.Osal.HeapRefine
import MmHalow.Osal.HeapRun
import MmHalow.Osal.Log
import MmHalow.Osal.Sync
import MmHalow.Osal.Timer
import MmHalow.Osal.TimerRun
import MmHalow.Pktmem.Account
import MmHalow.Pktmem.Flow
import MmHalow.Pktmem.Model
import MmHalow.Pktmem.Pause
import MmHalow.Pktmem.Reserve
import MmHalow.Pktmem.Sessions
import MmHalow.Sched.Claim
import MmHalow.Sched.Control
import MmHalow.Sched.Current
import MmHalow.Sched.Forever
import MmHalow.Sched.FullPass
import MmHalow.Sched.Held
import MmHalow.Sched.IdlePass
import MmHalow.Sched.Joins
import MmHalow.Sched.Machine
import MmHalow.Sched.Mutexes
import MmHalow.Sched.Objects
import MmHalow.Sched.Passes
import MmHalow.Sched.Queues
import MmHalow.Sched.Requests
import MmHalow.Sched.Signals
import MmHalow.Sched.Skipped
import MmHalow.Sched.Stack
import MmHalow.Sched.StackMark
import MmHalow.Sched.State
import MmHalow.Sched.TaskList
import MmHalow.Sched.Tasks
import MmHalow.Sched.Timing
import MmHalow.Sched.Wait
import MmHalow.Sched.WaitDepth
import MmHalow.Sched.Woken
