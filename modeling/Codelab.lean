import Codelab.CircularQueueInterleaving
import Codelab.CircularQueueStable
import Codelab.CircularQueueInit
import Codelab.CircularQueueRaces
import Codelab.LinkedQueueFifo
import Codelab.LinkedQueueBlocking
import Codelab.LinkedQueueLockFree
import Codelab.TaggedStackLockFree
import Codelab.AtomicGccOrder
import Codelab.FetchAll
import Codelab.LinkedQueueSafety
import Codelab.LinkedQueueDestructor
import Codelab.LinkedQueuePushes
import Codelab.LinkedQueueFreed
import Codelab.TaggedStackRefinement
import Codelab.TagPtrWord
import Codelab.UntaggedStackRecycling
import Codelab.TimerTaskProtocol
import Codelab.TimerTaskIdRange
import Codelab.TimerThreadSleep
import Codelab.TimerThreadStop
import Codelab.TimerRunChain
import Codelab.TimerRunDrain
import Codelab.LRUCacheAtomicity
import Codelab.LRUCacheDestructor
import Codelab.DoublyBufferedDataReaders
import Codelab.DoublyBufferedDataWriters
import Codelab.DoublyBufferedDataProgress
import Codelab.SkipListScan
import Codelab.SharedPtrPromotion
import Codelab.ExclusivePtr
import Codelab.SocketPoolExhausted
import Codelab.SocketPoolLifetime
import Codelab.SpCountedBaseSafety
import Codelab.SpinLockStoreBuffer
import Codelab.ThreadPoolTasks
import Codelab.ThreadPoolShutdown
import Codelab.ThreadedPoolRuns
import Codelab.LocalPoolStranded
import Codelab.LocalPoolAddresses
import Codelab.ResourcePoolSingleton
import Codelab.EchoServerMemory
import Codelab.PersonRoundTrip
import Codelab.Algo.QuickSelect
import Codelab.Algo.MergeSort
import Codelab.Algo.SignPartition
import Codelab.Algo.LowerBound
import Codelab.Algo.BinSearch
