import ConcurrencyCourse.Interleaving
import ConcurrencyCourse.Headcount
import ConcurrencyCourse.Mutex
import ConcurrencyCourse.FifoLock
import ConcurrencyCourse.TicketLock
import ConcurrencyCourse.TryLock
import ConcurrencyCourse.TrickyLock
import ConcurrencyCourse.CondVar
import ConcurrencyCourse.CyclicBarrier
import ConcurrencyCourse.BlockingQueue
import ConcurrencyCourse.ThreadPool
import ConcurrencyCourse.PoolJoin
import ConcurrencyCourse.PoolShutdown
import ConcurrencyCourse.Monitor
import ConcurrencyCourse.MonitorProgress
import ConcurrencyCourse.Semaphore
import ConcurrencyCourse.SemaphoreQueue
import ConcurrencyCourse.ThrowingElement
import ConcurrencyCourse.ClosableQueue
import ConcurrencyCourse.Asymmetric
import ConcurrencyCourse.StackfulCoroutine
import ConcurrencyCourse.Fibers
import ConcurrencyCourse.StackPool
import ConcurrencyCourse.FiberStacks
import ConcurrencyCourse.FiberPlaces
import ConcurrencyCourse.OneFuture
import ConcurrencyCourse.LockOrder
import ConcurrencyCourse.Dining
import ConcurrencyCourse.StoreBuffer
import ConcurrencyCourse.SequentialOrder
import ConcurrencyCourse.Atomic
import ConcurrencyCourse.Peterson
import ConcurrencyCourse.Exchange
import ConcurrencyCourse.TASSpinLock
import ConcurrencyCourse.SpinTryLock
import ConcurrencyCourse.ReleaseAcquire
import ConcurrencyCourse.Mutexed
import ConcurrencyCourse.TaggedSemaphore
import ConcurrencyCourse.Echo
import ConcurrencyCourse.NestedFibers
import ConcurrencyCourse.NestedPlaces
import ConcurrencyCourse.NestedSteps
import ConcurrencyCourse.NestedYield
import ConcurrencyCourse.Fairness
import ConcurrencyCourse.Jump
import ConcurrencyCourse.Processes
import ConcurrencyCourse.FiberProcesses
import ConcurrencyCourse.FiberPool
import ConcurrencyCourse.FiberWork
import ConcurrencyCourse.FiberProgress
import ConcurrencyCourse.FiberTermination
import ConcurrencyCourse.BarrierRounds
import ConcurrencyCourse.QueueTraffic
import ConcurrencyCourse.MonitorClients
import ConcurrencyCourse.MonitoredQueue
import ConcurrencyCourse.PoolRest
import ConcurrencyCourse.MonitoredPool
import ConcurrencyCourse.EchoSettles
import ConcurrencyCourse.SupportSpinLock
import ConcurrencyCourse.PetersonProgress
