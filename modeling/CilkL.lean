import CilkL.Library.AlternatingLedger
import CilkL.Library.CText
import CilkL.Library.Cells
import CilkL.Library.DoublyLinked
import CilkL.Library.Exclusive
import CilkL.Library.FirstMaximal
import CilkL.Library.Grouping
import CilkL.Library.HalfLinkedList
import CilkL.Library.Lifetime
import CilkL.Library.LockCode
import CilkL.Library.LockOrder
import CilkL.Library.Machine
import CilkL.Library.MemoryLists
import CilkL.Library.Potential
import CilkL.Library.Segment
import CilkL.Library.StampedMemory
import CilkL.Library.SwapPool
import CilkL.Library.Tiling
import CilkL.Runtime.ActiveWorkers
import CilkL.Runtime.CallStack
import CilkL.Runtime.CilkFor
import CilkL.Runtime.CilkredMap
import CilkL.Runtime.DequePool
import CilkL.Runtime.DequePoolArray
import CilkL.Runtime.FiberPool
import CilkL.Runtime.FiberSwitch
import CilkL.Runtime.FrameLifetime
import CilkL.Runtime.FrameMalloc
import CilkL.Runtime.FullFrame
import CilkL.Runtime.Future
import CilkL.Runtime.FutureFiberCache
import CilkL.Runtime.FutureFiberQueue
import CilkL.Runtime.FutureHandOff
import CilkL.Runtime.GlobalState
import CilkL.Runtime.IoQueue
import CilkL.Runtime.IoReadiness
import CilkL.Runtime.IoScheduler
import CilkL.Runtime.IoTransfer
import CilkL.Runtime.IoWakeup
import CilkL.Runtime.LoopPedigree
import CilkL.Runtime.PedigreeState
import CilkL.Runtime.PendingException
import CilkL.Runtime.RandomSteal
import CilkL.Runtime.RandomVictim
import CilkL.Runtime.RecordReplay
import CilkL.Runtime.ReducerList
import CilkL.Runtime.ReducerMap
import CilkL.Runtime.ReducerMinMax
import CilkL.Runtime.ReducerSuspension
import CilkL.Runtime.ReducerTable
import CilkL.Runtime.ReducerVector
import CilkL.Runtime.ReplayCursor
import CilkL.Runtime.ReplayWait
import CilkL.Runtime.Shutdown
import CilkL.Runtime.SiblingList
import CilkL.Runtime.SleepTree
import CilkL.Runtime.SpawnTree
import CilkL.Runtime.StrandPedigree
import CilkL.Runtime.SyncReplay
import CilkL.Runtime.SyncSp
import CilkL.Runtime.TheProtocol
import CilkL.Runtime.WorkerBinding
import CilkL.Runtime.WorkerLocks
import CilkL.Proofs.ActiveWorkers
import CilkL.Proofs.CactusTree
import CilkL.Proofs.CallStack
import CilkL.Proofs.CilkFor
import CilkL.Proofs.CilkredMap
import CilkL.Proofs.DequeContext
import CilkL.Proofs.DequePlace
import CilkL.Proofs.DequePool
import CilkL.Proofs.DequePoolArray
import CilkL.Proofs.EpollInterest
import CilkL.Proofs.FiberLimit
import CilkL.Proofs.FiberPool
import CilkL.Proofs.FiberPositions
import CilkL.Proofs.FiberQueueBound
import CilkL.Proofs.FiberSwitch
import CilkL.Proofs.FiberSwitchInv
import CilkL.Proofs.FiberSwitchStrands
import CilkL.Proofs.FrameAllocator
import CilkL.Proofs.FrameInvariant
import CilkL.Proofs.FrameLifetime
import CilkL.Proofs.FrameMalloc
import CilkL.Proofs.FrameSlots
import CilkL.Proofs.FrameSteal
import CilkL.Proofs.FrameSteps
import CilkL.Proofs.FutureFiberCache
import CilkL.Proofs.FutureFiberQueue
import CilkL.Proofs.FutureGetSteps
import CilkL.Proofs.FutureHandOff
import CilkL.Proofs.FutureInvariant
import CilkL.Proofs.FutureProtocol
import CilkL.Proofs.FuturePutSteps
import CilkL.Proofs.GlobalState
import CilkL.Proofs.Grainsize
import CilkL.Proofs.IoModes
import CilkL.Proofs.IoOrder
import CilkL.Proofs.IoQueue
import CilkL.Proofs.IoReadiness
import CilkL.Proofs.IoScheduler
import CilkL.Proofs.IoTransfer
import CilkL.Proofs.IoWakeup
import CilkL.Proofs.LeftHolder
import CilkL.Proofs.LoopPedigree
import CilkL.Proofs.PedigreeState
import CilkL.Proofs.PendingException
import CilkL.Proofs.RandomSteal
import CilkL.Proofs.RandomVictim
import CilkL.Proofs.RecordReplay
import CilkL.Proofs.ReducerDeterminism
import CilkL.Proofs.ReducerList
import CilkL.Proofs.ReducerMap
import CilkL.Proofs.ReducerMinMax
import CilkL.Proofs.ReducerProgress
import CilkL.Proofs.ReducerSuspension
import CilkL.Proofs.ReducerTable
import CilkL.Proofs.ReducerVector
import CilkL.Proofs.ReplayCursor
import CilkL.Proofs.ReplayWait
import CilkL.Proofs.Shutdown
import CilkL.Proofs.SiblingList
import CilkL.Proofs.SleepTree
import CilkL.Proofs.SpawnTree
import CilkL.Proofs.StrandPedigree
import CilkL.Proofs.StrandSchedule
import CilkL.Proofs.SyncReplay
import CilkL.Proofs.SyncSp
import CilkL.Proofs.TheProtocol
import CilkL.Proofs.WorkerBinding
import CilkL.Proofs.WorkerLocks
