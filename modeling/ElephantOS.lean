import ElephantOS.InodeStore
import ElephantOS.FormatBounds
import ElephantOS.DirectoryInsert
import ElephantOS.Blocks
import ElephantOS.FileGrow
import ElephantOS.FileWrite
import ElephantOS.FileRuns
import ElephantOS.FileRead
import ElephantOS.FileContents
import ElephantOS.FileLimits
import ElephantOS.PageWalk
import ElephantOS.Scheduler
import ElephantOS.SingleWriter
import ElephantOS.ReferenceCounts
import ElephantOS.FramesApart
import ElephantOS.HeapRuns
import ElephantOS.HeapOverrun
import ElephantOS.Ioqueue
import ElephantOS.DiskChannel
import ElephantOS.DiskStartup
import ElephantOS.BitmapScan
import ElephantOS.DirectoryDelete
import ElephantOS.DirectoryNames
import ElephantOS.DirectoryRead
import ElephantOS.WorkingPath
import ElephantOS.FileRoundTrip
import ElephantOS.FilePositions
import ElephantOS.CreationFailure
import ElephantOS.DescriptorCalls
import ElephantOS.Keyboard
import ElephantOS.FormattedOutput
import ElephantOS.MemoryPools
import ElephantOS.DiskTransfer
import ElephantOS.PartitionTours
import ElephantOS.PageFailure
import ElephantOS.PoolLocks
import ElephantOS.PageRoundTrip
import ElephantOS.MallocReturns
import ElephantOS.KernelInodes
import ElephantOS.DirectoryMap
import ElephantOS.DiskWait
import ElephantOS.NumberText
import ElephantOS.IntrusiveList
import ElephantOS.Screen
import ElephantOS.PathTokens
import ElephantOS.ProcessIds
import ElephantOS.NamedTree
import ElephantOS.Transitions
import ElephantOS.FileSpace
import ElephantOS.NameGraph
import ElephantOS.VolumeStates
import ElephantOS.VolumeLives
