import Crasy.Base.System
import Crasy.Base.Tally
import Crasy.Base.Linked
import Crasy.Base.Ledger
import Crasy.Base.Handles
import Crasy.Base.Deferred
import Crasy.Base.LockProgram
import Crasy.Base.Rendezvous
import Crasy.Base.Parking
import Crasy.Base.Amortized
import Crasy.Base.Events
import Crasy.Base.Circulation
import Crasy.Base.Holder
import Crasy.Base.Component
import Crasy.Types.Option
import Crasy.LfQueue.Basic
import Crasy.LfQueue.Fifo
import Crasy.LfQueue.Sequential
import Crasy.LfQueue.Destructor
import Crasy.LfQueue.Threads
import Crasy.LfQueue.Ends
import Crasy.LfQueue.Concurrent
import Crasy.LfQueue.Ownership
import Crasy.LfQueue.SingleProducer
import Crasy.LfQueue.Recycling
import Crasy.LfQueue.Order
import Crasy.LfQueue.Memory
import Crasy.LfQueue.Nullopt
import Crasy.LfQueue.Alone
import Crasy.LfQueue.Progress
import Crasy.Sync.Mutex
import Crasy.Sync.MutexLock
import Crasy.Sync.MutexWaiters
import Crasy.Sync.MutexPop
import Crasy.Sync.MutexHandles
import Crasy.Sync.SharedMutex
import Crasy.Sync.SharedLock
import Crasy.Sync.SharedWord
import Crasy.Sync.SharedWaiters
import Crasy.Sync.SharedHandles
import Crasy.Sync.SharedPriority
import Crasy.Sync.LockGuard
import Crasy.Sync.LockAttempt
import Crasy.Sync.UniqueLock
import Crasy.Sync.CondVar
import Crasy.Sync.CondVarWait
import Crasy.Executor.Blocking
import Crasy.Executor.BlockingCounter
import Crasy.Executor.BlockingDrain
import Crasy.Executor.BlockingShutdown
import Crasy.Executor.BlockingOrder
import Crasy.Executor.Core
import Crasy.Executor.Stopped
import Crasy.Executor.CoreShutdown
import Crasy.Executor.HandBack
import Crasy.Future.Chain
import Crasy.Future.Tree
import Crasy.Future.Forest
import Crasy.Future.DirectStyle
import Crasy.Future.Settling
import Crasy.Future.BlockOn
import Crasy.Future.Stream
import Crasy.Future.Lifetime
import Crasy.Spawn.JoinHandle
import Crasy.Spawn.BlockingJoinHandle
import Crasy.Spawn.BlockingOutcome
import Crasy.Spawn.Pool
import Crasy.Io.Handoff
import Crasy.Io.Udp
