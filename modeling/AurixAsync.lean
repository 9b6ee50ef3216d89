import AurixAsync.Cpu.Alarm
import AurixAsync.Cpu.CriticalSection
import AurixAsync.Cpu.Expiry
import AurixAsync.Executor.Arming
import AurixAsync.Executor.BaseExecutor
import AurixAsync.Executor.Pass
import AurixAsync.Executor.Queues
import AurixAsync.Executor.Step
import AurixAsync.Executor.Turns
import AurixAsync.Executor.Wakes
import AurixAsync.Kernel.Affinity
import AurixAsync.Kernel.Alarms
import AurixAsync.Kernel.ExecutorList
import AurixAsync.Kernel.Ready
import AurixAsync.Kernel.Sleep
import AurixAsync.Kernel.Step
import AurixAsync.Kernel.Tick
import AurixAsync.Kernel.Uptime
import AurixAsync.Lib.BoundedMap
import AurixAsync.Lib.Delivery
import AurixAsync.Lib.Deque
import AurixAsync.Lib.FiniteBuffer
import AurixAsync.Lib.FirstReady
import AurixAsync.Lib.MinHeap
import AurixAsync.Lib.Readers
import AurixAsync.Lib.Ring
import AurixAsync.Lib.Run
import AurixAsync.Lib.Segments
import AurixAsync.Lib.TriCore.Context
import AurixAsync.Lib.TriCore.Machine
import AurixAsync.Lib.TriCore.Memory
import AurixAsync.Lib.Waiting
import AurixAsync.Memory.Bump
import AurixAsync.Memory.Heap
import AurixAsync.Memory.HeapFirstFit
import AurixAsync.Memory.HeapMerge
import AurixAsync.Memory.HeapRun
import AurixAsync.Runtime.Constructors
import AurixAsync.Runtime.ContextList
import AurixAsync.Runtime.Crt0
import AurixAsync.Runtime.Image
import AurixAsync.Runtime.Sections
import AurixAsync.Srp.Blocking
import AurixAsync.Srp.Exclusion
import AurixAsync.Srp.Mutex
import AurixAsync.Sync.Channel
import AurixAsync.Sync.MultiWaker
import AurixAsync.Sync.Mutex
import AurixAsync.Sync.OnceLock
import AurixAsync.Sync.Pipe
import AurixAsync.Sync.PipeStream
import AurixAsync.Sync.PipeWakes
import AurixAsync.Sync.PriorityChannel
import AurixAsync.Sync.PriorityWakes
import AurixAsync.Sync.PubSub
import AurixAsync.Sync.PubSubBackPressure
import AurixAsync.Sync.PubSubDelivery
import AurixAsync.Sync.PubSubPure
import AurixAsync.Sync.PubSubWakes
import AurixAsync.Sync.RingBuffer
import AurixAsync.Sync.Select
import AurixAsync.Sync.SelectPoll
import AurixAsync.Sync.SelectSignals
import AurixAsync.Sync.Signal
import AurixAsync.Sync.WakerRegistration
import AurixAsync.Sync.ZerocopyChannel
import AurixAsync.Sync.ZerocopyWakes
import AurixAsync.TestCases
import AurixAsync.Time.TimerQueue
