import GatOS.BuddyAllocatorComplete
import GatOS.BuddyAllocatorCoalesce
import GatOS.ArrivalOrder
import GatOS.ProcessRing
import GatOS.Operations
import GatOS.WaiterRing
import GatOS.SemaphorePermits
import GatOS.SemaphoreQueue
import GatOS.MutexExclusion
import GatOS.ObjectLifecycle
import GatOS.IPC
import GatOS.PipeQueue
import GatOS.DoublyLinkedList
import GatOS.Tiling
import GatOS.Malloc
import GatOS.MallocRun
import GatOS.KernelHeap
import GatOS.Terminal
import GatOS.MutexTable
import GatOS.ByteMemory
import GatOS.PipeOrder
import GatOS.PipeRegistry
import GatOS.ProcessTeardown
import GatOS.ScreenLimits
import GatOS.SleepRuns
import GatOS.MutexPreemption
import GatOS.ProducerConsumerRuns
import GatOS.PhilosophersRuns
import GatOS.OutOfPagesCalls
import GatOS.BuddyAllocatorDealloc
import GatOS.PageCalls
import GatOS.NamedObjects
import GatOS.NameBuffers
import GatOS.UserHandles
import GatOS.KernelImage
import GatOS.CondCallsRuns
import GatOS.TurnTaking
import GatOS.SchedulerTurns
import GatOS.ProcessLookup
import GatOS.ShellRestart
import GatOS.ThreadPages
import GatOS.ThreadSlots
import GatOS.SuspendedCalls
import GatOS.SemaphoreCreation
import GatOS.MallocSizes
import GatOS.HeapReuse
import GatOS.LineInput
import GatOS.LinkedQueue
import GatOS.ProcessListing
import GatOS.MutexClosing
import GatOS.Mouse
import GatOS.StartSemaphores
import GatOS.NumberBuffer
import GatOS.StringOrder
import GatOS.Undisturbed
import GatOS.SemaphoreGroup
import GatOS.ProducerConsumerProgress
import GatOS.BoundedWaiting
import GatOS.SchedulerFairness
import GatOS.Keyboard
import GatOS.Typing
import GatOS.TextScreen
import GatOS.SleepLatency
import GatOS.DiskImage
