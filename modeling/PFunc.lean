import PFunc.LabelledRuns
import PFunc.ObservedRuns
import PFunc.Atomics
import PFunc.Mutex
import PFunc.AtomicsBackends
import PFunc.GenericAtomics
import PFunc.Event
import PFunc.WaitableEvent
import PFunc.EventLock
import PFunc.EventCountdown
import PFunc.ForkJoinStacks
import PFunc.QueueSet
import PFunc.QueueScan
import PFunc.Task
import PFunc.TaskManager
import PFunc.GetTask
import PFunc.CSpawn
import PFunc.Effects
import PFunc.Stages
import PFunc.CallStack
import PFunc.ExactlyOnce
import PFunc.ForkJoin
import PFunc.Progress
import PFunc.Levels
import PFunc.Priorities
import PFunc.PriorityScan
import PFunc.Liveness
import PFunc.GroupStacks
import PFunc.WorkerStacks
import PFunc.Exceptions
import PFunc.QueueFaults
import PFunc.ReturnCodes
import PFunc.Respawn
import PFunc.Unwinding
import PFunc.Completion
import PFunc.Delivery
import PFunc.TestAll
import PFunc.WaitAny
import PFunc.GroupBarrier
import PFunc.InternalBarrier
import PFunc.NestedWait
import PFunc.GroupMembers
import PFunc.GroupRanks
import PFunc.ThreadIdentity
import PFunc.FormatParser
import PFunc.ByteBlocks
import PFunc.Packing
import PFunc.SplitTree
import PFunc.ParallelFor
import PFunc.ParallelReduce
import PFunc.ParallelWhile
import PFunc.LoopExits
import PFunc.Headcounts
import PFunc.Monitors
import PFunc.WindowsCond
import PFunc.WindowsMonitor
import PFunc.Continuations
import PFunc.WindowsBroadcast
import PFunc.WindowsBarrier
import PFunc.Shutdown
import PFunc.ShutdownForkJoin
import PFunc.StartUp
import PFunc.ServiceOrder
import PFunc.Deques
import PFunc.DepthFirst
import PFunc.FifoStacks
