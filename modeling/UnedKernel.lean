import UnedKernel.Lib.Bytes
import UnedKernel.Lib.Record
import UnedKernel.Lib.Word
import UnedKernel.Lib.BitField
import UnedKernel.Lib.Bitmap
import UnedKernel.Lib.Radix
import UnedKernel.Lib.Run
import UnedKernel.Lib.Share
import UnedKernel.Lib.Sectors
import UnedKernel.Lib.CString
import UnedKernel.Lib.MaximalRuns
import UnedKernel.Lib.Components
import UnedKernel.Lib.Ring
import UnedKernel.Lib.Rounds
import UnedKernel.Lib.Indirect
import UnedKernel.Lib.Scatter
import UnedKernel.Lib.Orbit
import UnedKernel.Lib.NodeList
import UnedKernel.Lib.Blocks
import UnedKernel.Util.Tokens
import UnedKernel.Util.Numbers
import UnedKernel.Util.Strtoull
import UnedKernel.Util.Printf
import UnedKernel.Util.PrintedNumbers
import UnedKernel.Memory.Pages
import UnedKernel.Memory.PagesSafety
import UnedKernel.Memory.PagesInit
import UnedKernel.Memory.PagesAccounts
import UnedKernel.Memory.PagesContiguous
import UnedKernel.Memory.Paging
import UnedKernel.Memory.PagingRefinement
import UnedKernel.Memory.PagingRuns
import UnedKernel.Memory.Duplicate
import UnedKernel.Memory.DuplicateTranslation
import UnedKernel.Memory.Isolation
import UnedKernel.Memory.Spaces
import UnedKernel.Memory.Access
import UnedKernel.Memory.Arenas
import UnedKernel.Memory.Heap
import UnedKernel.Memory.HeapList
import UnedKernel.Memory.HeapHeaders
import UnedKernel.Memory.HeapShape
import UnedKernel.Memory.HeapSafety
import UnedKernel.Memory.HeapRuns
import UnedKernel.Memory.HeapSizes
import UnedKernel.Memory.HeapGrowth
import UnedKernel.Memory.HeapCoalesced
import UnedKernel.Memory.HeapAccounts
import UnedKernel.Memory.HeapContents
import UnedKernel.Memory.HeapRealloc
import UnedKernel.Memory.UserHeap
import UnedKernel.Memory.UserHeapSafety
import UnedKernel.Memory.UserHeapPages
import UnedKernel.Memory.UserHeapRuns
import UnedKernel.Memory.UserTasks
import UnedKernel.Proc.Loader
import UnedKernel.Proc.LoaderTask
import UnedKernel.Proc.LoaderImage
import UnedKernel.Memory.BootPaging
import UnedKernel.Ext2.Disk
import UnedKernel.Ext2.Volume
import UnedKernel.Ext2.Block
import UnedKernel.Ext2.BlockRuns
import UnedKernel.Ext2.BlockArray
import UnedKernel.Ext2.BlockCounts
import UnedKernel.Ext2.Inode
import UnedKernel.Ext2.InodeBitmap
import UnedKernel.Ext2.InodeSafety
import UnedKernel.Ext2.InodeRuns
import UnedKernel.Ext2.InodeArray
import UnedKernel.Ext2.Flush
import UnedKernel.Ext2.Failures
import UnedKernel.Ext2.BlockTree
import UnedKernel.Ext2.BlockWalks
import UnedKernel.Ext2.BlockTransfers
import UnedKernel.Ext2.ByteReads
import UnedKernel.Ext2.WholeReads
import UnedKernel.Ext2.BlockLists
import UnedKernel.Ext2.BlockRelease
import UnedKernel.Ext2.ByteWrites
import UnedKernel.Ext2.Path
import UnedKernel.Ext2.Resize
import UnedKernel.Ext2.Growth
import UnedKernel.Ext2.Dentry
import UnedKernel.Ext2.DirectoryEdit
import UnedKernel.Ext2.DirectoryScans
import UnedKernel.Ext2.DirectoryRecords
import UnedKernel.Ext2.DirectoryGrowth
import UnedKernel.Ext2.PathSplit
import UnedKernel.Ext2.PathTokens
import UnedKernel.Ext2.Lookups
import UnedKernel.Ext2.ExactPaths
import UnedKernel.Ext2.FileFrames
import UnedKernel.Ext2.FileTransfers
import UnedKernel.Ext2.Files
import UnedKernel.Ext2.RecordRemoval
import UnedKernel.Ext2.DirectoryShrink
import UnedKernel.Ext2.Register
import UnedKernel.Ext2.Remount
import UnedKernel.Ext2.MessageLog
import UnedKernel.Fat32.Cache
import UnedKernel.Fat32.Clusters
import UnedKernel.Fat32.Files
import UnedKernel.Fat32.Volumes
import UnedKernel.Sched.Scheduler
import UnedKernel.Sched.Exclusive
import UnedKernel.Sched.Pids
import UnedKernel.Sched.TaskLinks
import UnedKernel.Sched.Lifecycle
import UnedKernel.Sched.Fairness
import UnedKernel.Sched.LockDepth
import UnedKernel.Sched.Signals
import UnedKernel.Vfs.Mount
import UnedKernel.Vfs.Compat
import UnedKernel.Vfs.DescriptorRuns
import UnedKernel.Vfs.DirectoryNodes
import UnedKernel.Vfs.DirectoryRuns
import UnedKernel.Vfs.DirectoryTables
import UnedKernel.Vfs.DirectoryListing
import UnedKernel.Vfs.Remove
import UnedKernel.Vfs.Resolve
import UnedKernel.Vfs.Normalize
import UnedKernel.Vfs.FileCalls
import UnedKernel.Vfs.FifoRuns
import UnedKernel.Vfs.ClosedCalls
import UnedKernel.Vfs.Offsets
import UnedKernel.Vfs.Gpt
import UnedKernel.Vfs.Probe
import UnedKernel.Debug.ShellPaths
import UnedKernel.Tty.LineDiscipline
import UnedKernel.Tty.Terminal
import UnedKernel.Tty.LineEditor
import UnedKernel.Tty.InputRing
import UnedKernel.Tty.OutputRing
import UnedKernel.Drivers.Serial
import UnedKernel.Drivers.Devices
