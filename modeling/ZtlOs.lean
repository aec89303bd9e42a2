import ZtlOs.Sync.Spinlock
import ZtlOs.Memory.Vm
import ZtlOs.Memory.Setupkvm
import ZtlOs.Fs.Format
import ZtlOs.Fs.InodeReuse
import ZtlOs.Log.Protocol
import ZtlOs.Log.Admission
import ZtlOs.Cache.Bcache
import ZtlOs.Fs.Block
import ZtlOs.Log.Transactions
import ZtlOs.Log.Transfers
import ZtlOs.Log.Coherence
import ZtlOs.Log.Disk
import ZtlOs.Log.Crash
import ZtlOs.Ipc.Pipe
import ZtlOs.Drivers.Ide
import ZtlOs.Drivers.Refinement
import ZtlOs.Log.Buffers
import ZtlOs.Fs.Layout
import ZtlOs.Fs.Content
import ZtlOs.Support.Program
import ZtlOs.Mkfs.Mkfs
import ZtlOs.Mkfs.Image
import ZtlOs.Mkfs.Main
import ZtlOs.Mkfs.WellFormed
import ZtlOs.Mkfs.Tidy
import ZtlOs.Kernel.Fs
import ZtlOs.Kernel.Dir
import ZtlOs.Kernel.File
import ZtlOs.Kernel.Exec
import ZtlOs.Kernel.Sysfile
import ZtlOs.Kernel.Volume
import ZtlOs.Kernel.Trace
import ZtlOs.Kernel.Brackets
import ZtlOs.Kernel.Reading
import ZtlOs.Kernel.Calls
import ZtlOs.Mkfs.ReadBack
import ZtlOs.Memory.Allocator
import ZtlOs.Memory.Mappages
import ZtlOs.Memory.SetupkvmFailure
import ZtlOs.Support.Circular
import ZtlOs.Cache.Linked
import ZtlOs.Cache.Structure
import ZtlOs.Drivers.Console
import ZtlOs.Drivers.LineDiscipline
import ZtlOs.Ipc.Descriptors
import ZtlOs.Fs.SharedOffset
import ZtlOs.Ipc.Ownership
import ZtlOs.Fs.Icache
import ZtlOs.Fs.References
import ZtlOs.Kernel.Allocation
import ZtlOs.Kernel.Writing
import ZtlOs.Kernel.Logged
import ZtlOs.Kernel.WriteCost
import ZtlOs.Kernel.ByteFile
import ZtlOs.Kernel.Truncate
import ZtlOs.Fs.Nodes
import ZtlOs.Kernel.Intact
import ZtlOs.Kernel.Inodes
import ZtlOs.Log.Waiters
import ZtlOs.Drivers.Failures
import ZtlOs.Syscall.Arguments
import ZtlOs.Syscall.ExecStack
import ZtlOs.Sync.Processors
import ZtlOs.Sync.Sleeplock
import ZtlOs.Sync.Sleep
import ZtlOs.Kernel.Holding
import ZtlOs.Support.Bindings
import ZtlOs.Kernel.Directory
import ZtlOs.Kernel.Paths
import ZtlOs.Kernel.Resolution
import ZtlOs.Kernel.Names
import ZtlOs.Kernel.Keeping
import ZtlOs.Kernel.OpenFiles
import ZtlOs.Kernel.Lifetime
import ZtlOs.Kernel.OpenRuns
import ZtlOs.Kernel.BlockOwnership
import ZtlOs.Kernel.Reservation
import ZtlOs.Support.Hierarchy
import ZtlOs.Kernel.Edits
import ZtlOs.Kernel.Turning
import ZtlOs.Kernel.Sweeping
import ZtlOs.Kernel.NameCalls
import ZtlOs.Kernel.CallEdits
import ZtlOs.Kernel.EditRuns
import ZtlOs.Kernel.NameSpace
import ZtlOs.Kernel.SoberEdits
import ZtlOs.Kernel.FlatVolume
import ZtlOs.Kernel.TreeRuns
import ZtlOs.Kernel.Restarts
import ZtlOs.Mkfs.Rooted
import ZtlOs.Mkfs.Found
import ZtlOs.Support.Copying
import ZtlOs.Memory.Memmove
import ZtlOs.Support.Lines
import ZtlOs.User.Matcher
import ZtlOs.User.Grep
import ZtlOs.Kernel.Bitmap
import ZtlOs.Support.Patches
import ZtlOs.Boot.Bootmain
import ZtlOs.Boot.Loading
import ZtlOs.Support.Extents
import ZtlOs.Support.Threaded
import ZtlOs.User.Umalloc
import ZtlOs.User.FreeList
import ZtlOs.User.Malloc
import ZtlOs.User.HeapRuns
import ZtlOs.Support.Numerals
import ZtlOs.User.Printint
import ZtlOs.Support.Views
import ZtlOs.User.Sh
import ZtlOs.User.Tokens
import ZtlOs.User.Grammar
import ZtlOs.User.Parsecmd
import ZtlOs.User.Nulterminate
import ZtlOs.User.Runcmd
import ZtlOs.User.Processes
