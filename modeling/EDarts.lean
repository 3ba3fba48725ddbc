import EDarts.Lib.Bytes
import EDarts.Lib.Stores
import EDarts.Lib.Runs
import EDarts.Lib.Retry
import EDarts.Lib.Progress
import EDarts.Lib.Dataflow
import EDarts.Lib.Ring
import EDarts.Lib.Tiling
import EDarts.Lib.Blocks
import EDarts.Multithreading.Mutex
import EDarts.Multithreading.MutexSafety
import EDarts.Multithreading.FullAddress
import EDarts.CodeletModel
import EDarts.Assets.CodeletsQueue
import EDarts.Assets.CodeletsQueueProofs
import EDarts.Assets.CodeletsQueueModular
import EDarts.Assets.CodeletsQueueFills
import EDarts.Assets.TpClosuresQueue
import EDarts.Assets.TpClosuresQueueProofs
import EDarts.Assets.TpClosuresQueueRuns
import EDarts.Assets.TpClosuresQueueCalls
import EDarts.Assets.TpClosuresQueueInit
import EDarts.Assets.TpClosuresQueueSteps
import EDarts.Assets.TpClosuresQueueOwnership
import EDarts.Assets.TpClosuresQueuePeak
import EDarts.Assets.TpClosuresQueueGrows
import EDarts.CodeletModel.TpClosure
import EDarts.CodeletModel.ThreadedProcedure
import EDarts.Assets.SyncSlot
import EDarts.Assets.SyncSlotRounds
import EDarts.Runtime.Global
import EDarts.Runtime.DecDep
import EDarts.Runtime.DecDepProofs
import EDarts.Runtime.CodeletProgram
import EDarts.Runtime.CodeletProgramProofs
import EDarts.Runtime.CodeletProgramCompletes
import EDarts.Runtime.PseudoRuntime
import EDarts.Runtime.PseudoRuntimeProofs
import EDarts.Runtime.PseudoRuntimeHeap
import EDarts.Runtime.PseudoRuntimeQueue
import EDarts.Runtime.PseudoRuntimeRuns
import EDarts.Runtime.CuScheduler
import EDarts.Runtime.SuScheduler
import EDarts.Runtime.SuSchedulerProofs
import EDarts.Runtime.RetryLoops
import EDarts.Multithreading.Barrier
import EDarts.Multithreading.BarrierProofs
import EDarts.Multithreading.BarrierSafety
import EDarts.Assets.OwnLock
import EDarts.Runtime.Print
import EDarts.Runtime.PrintProofs
import EDarts.Runtime.PrintHandshake
import EDarts.Runtime.PrintHandshakeProofs
import EDarts.Runtime.PrintBounds
import EDarts.Runtime.PrintServerBounds
import EDarts.SoftCache.CacheManager
import EDarts.SoftCache.CacheManagerProofs
import EDarts.SoftCache.CacheManagerRuns
import EDarts.Runtime.ProducerConsumer
import EDarts.Runtime.ProducerConsumerProofs
