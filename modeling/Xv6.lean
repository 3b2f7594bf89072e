import Xv6.Base.Wp
import Xv6.Base.Bytes
import Xv6.Base.PointerTree
import Xv6.FileSystem.Format
import Xv6.FileSystem.State
import Xv6.FileSystem.Blocks
import Xv6.FileSystem.Inodes
import Xv6.FileSystem.BlockTree
import Xv6.FileSystem.Ownership
import Xv6.FileSystem.Bmap
import Xv6.FileSystem.Contents
import Xv6.FileSystem.ReadWrite
import Xv6.Base.ByteFile
import Xv6.FileSystem.FileRefinement
import Xv6.FileSystem.Truncate
import Xv6.FileSystem.Discard
import Xv6.FileSystem.InodeCache
import Xv6.FileSystem.Invariant
import Xv6.FileSystem.InodeRuns
import Xv6.FileSystem.OpenFile
import Xv6.FileSystem.Holes
import Xv6.FileSystem.FileCalls
import Xv6.FileSystem.PositionalWrite
import Xv6.FileSystem.Directory
import Xv6.FileSystem.SysFile
import Xv6.FileSystem.Moves
import Xv6.FileSystem.InodeCalls
import Xv6.FileSystem.DirectoryCalls
import Xv6.Process.Descriptors
import Xv6.Process.Calls
import Xv6.Process.Runs
import Xv6.Process.Joins
import Xv6.Process.Directories
import Xv6.Process.Reaping
import Xv6.Base.IdPool
import Xv6.Process.Stacks
import Xv6.Process.Tids
import Xv6.Process.Lineage
import Xv6.Process.Parents
import Xv6.Memory.Paged
import Xv6.Memory.Growproc
import Xv6.Memory.Sizes
import Xv6.Scheduler.Mlfq
import Xv6.Scheduler.Levels
import Xv6.Base.Spread
import Xv6.Base.FirstLeast
import Xv6.Scheduler.Stride
import Xv6.Scheduler.MinPass
import Xv6.Base.Ledger
import Xv6.Process.Shares
import Xv6.Process.Newcomers
import Xv6.Process.Kills
import Xv6.Process.Admission
import Xv6.Base.Ring
import Xv6.Pipe.Calls
import Xv6.Pipe.Fifo
import Xv6.Shell.Execute
import Xv6.Base.Links
import Xv6.Disk.Bio
import Xv6.Disk.Coherence
import Xv6.Disk.Operations
import Xv6.Disk.Supply
import Xv6.Scheduler.Clock
import Xv6.Scheduler.Solo
import Xv6.Scheduler.Boosts
import Xv6.Scheduler.Allotment
import Xv6.Memory.Accounts
import Xv6.Memory.PagingRules
import Xv6.Memory.CopyUvm
import Xv6.Memory.Host
import Xv6.Memory.Program
import Xv6.Memory.Exec
import Xv6.Base.Tokens
import Xv6.Shell.Line
import Xv6.Shell.Read
import Xv6.Shell.Stream
import Xv6.Base.SlotTable
import Xv6.FileSystem.Listing
import Xv6.FileSystem.DirectoryMap
import Xv6.FileSystem.Paths
import Xv6.Disk.Journal
import Xv6.Disk.Reservation
import Xv6.Disk.Recovery
import Xv6.Process.UserStores
import Xv6.FileSystem.PureReads
import Xv6.FileSystem.SysCalls
import Xv6.FileSystem.WriteThrough
import Xv6.Process.Bracketed
import Xv6.FileSystem.Logged
import Xv6.FileSystem.Crash
