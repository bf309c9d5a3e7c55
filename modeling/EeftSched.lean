import EeftSched.Lib.Exec
import EeftSched.Lib.Barrier
import EeftSched.Lib.SortedQueue
import EeftSched.Lib.TicketQueue
import EeftSched.Lib.RefCount
import EeftSched.Lib.LinkedList
import EeftSched.Lib.Demand
import EeftSched.Lib.Rounding
import EeftSched.Lib.FoldMax
import EeftSched.Lib.Lines
import EeftSched.Lib.Regex
import EeftSched.Lib.CircularList
import EeftSched.Lib.LockOrder
import EeftSched.Task
import EeftSched.Criticality
import EeftSched.Agreement
import EeftSched.Shutdown
import EeftSched.BarrierWait
import EeftSched.RingBuffer
import EeftSched.Log
import EeftSched.LogRecord
import EeftSched.RingQueue
import EeftSched.RingFifo
import EeftSched.Ipc
import EeftSched.Datagrams
import EeftSched.Lockstep
import EeftSched.Slack
import EeftSched.ListHead
import EeftSched.JobQueue
import EeftSched.State
import EeftSched.Tick
import EeftSched.Processor
import EeftSched.Held
import EeftSched.Own
import EeftSched.Pool
import EeftSched.Ownership
import EeftSched.Unlink
import EeftSched.Dispatch
import EeftSched.Outgoing
import EeftSched.Network
import EeftSched.Budget
import EeftSched.ModeTrigger
import EeftSched.Guards
import EeftSched.TickFaults
import EeftSched.Tuning
import EeftSched.LMax
import EeftSched.TuningLoop
import EeftSched.Allocator
import EeftSched.TasksetGenerator
import EeftSched.ModeChange
import EeftSched.SlackSpec
import EeftSched.Admission
import EeftSched.Horizon
import EeftSched.Deadlines
import EeftSched.NextArrival
import EeftSched.Power
import EeftSched.Cancel
import EeftSched.JobPool
import EeftSched.PoolIntegrity
import EeftSched.Delegations
import EeftSched.LogParser
import EeftSched.Timeline
import EeftSched.Sleep
import EeftSched.Handover
import EeftSched.Acks
import EeftSched.TwoCores
import EeftSched.Deadlock
import EeftSched.Releases
import EeftSched.Feasible
import EeftSched.RingTickets
import EeftSched.Execution
import EeftSched.DeadlineMiss
import EeftSched.Sweep
import EeftSched.Clock
import EeftSched.AllocatorCores
import EeftSched.TaskConfig
import EeftSched.Levels
import EeftSched.AllocatorEnds
import EeftSched.Taskset
import EeftSched.Cooldown
