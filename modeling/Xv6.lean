import Xv6.Log.Atomicity
import Xv6.Fs.Readback
import Xv6.Fs.Trunc
import Xv6.Fs.Saved
import Xv6.Fs.WriteThrough
import Xv6.Fs.Trace
import Xv6.Fs.Transaction
import Xv6.Sched.Priority
import Xv6.Vm.Memory
import Xv6.Vm.PageTable
import Xv6.Vm.Exec
import Xv6.Vm.Process
import Xv6.Vm.Entry
import Xv6.Vm.Owner
import Xv6.Vm.Alloc
import Xv6.Fs.Corruption
import Xv6.Fs.Delete
import Xv6.Checker.Image
import Xv6.Checker.Checks
import Xv6.Checker.View
import Xv6.Checker.Bitmap
import Xv6.Checker.Directory
import Xv6.Checker.Links
import Xv6.Checker.Parent
import Xv6.Vm.Map
import Xv6.Vm.Space
import Xv6.Mkfs.Build
import Xv6.Mkfs.Append
import Xv6.Mkfs.Table
import Xv6.Mkfs.Files
import Xv6.Mkfs.Accepted
import Xv6.Vm.Uvm
import Xv6.Ipc.Fifo
import Xv6.Log.Header
import Xv6.Log.Commits
import Xv6.Log.Admission
import Xv6.Sched.LockOrder
import Xv6.Sched.Kill
import Xv6.Sched.Tree
import Xv6.Sched.WellFormed
import Xv6.Bio.Bcache
import Xv6.Bio.Coherence
import Xv6.Syscall.Args
import Xv6.Syscall.Touched
import Xv6.Names.Calls
import Xv6.Names.Refs
import Xv6.Vm.Freevm
import Xv6.Vm.Copy
import Xv6.Vm.Load
import Xv6.Vm.Attached
import Xv6.Vm.Calls
import Xv6.Vm.Boot
import Xv6.Vm.Mapped
import Xv6.Ipc.Locked
import Xv6.Ipc.Wakeup
import Xv6.Vm.Unshared
import Xv6.Vm.Growproc
import Xv6.Vm.Copyuvm
import Xv6.Vm.Copyout
import Xv6.Vm.Segments
import Xv6.Vm.Arguments
import Xv6.Names.Locks
import Xv6.Exec.Machine
import Xv6.Exec.Failed
import Xv6.Exec.Returned
import Xv6.Lib.Slots
import Xv6.Dir.Directory
import Xv6.Dir.Table
import Xv6.Dir.Lookup
import Xv6.Dir.Names
import Xv6.Checker.Addresses
import Xv6.Checker.Counts
import Xv6.Checker.Bounds
import Xv6.Fs.Stat
import Xv6.Sched.Rounds
import Xv6.Sched.Accounts
import Xv6.Mkfs.Holes
import Xv6.Mkfs.Mounted
import Xv6.Dir.Paths
import Xv6.Dir.Walk
import Xv6.Vm.Skip
import Xv6.Vm.Shmem
import Xv6.Lib.Lines
import Xv6.User.Grep
import Xv6.Ipc.Console
import Xv6.Ipc.Discipline
import Xv6.Fs.Writers
import Xv6.Lib.Extents
import Xv6.User.Umalloc
import Xv6.User.FreeList
import Xv6.User.Malloc
import Xv6.User.Allocator
import Xv6.User.Sbrk
import Xv6.Lib.Strings
import Xv6.User.Grammar
import Xv6.User.Tokens
import Xv6.User.Parser
import Xv6.User.Parsecmd
import Xv6.Fs.Buffers
import Xv6.Dev.Ide
import Xv6.Dev.Queue
import Xv6.Dev.Atomic
import Xv6.Sync.Spinlock
import Xv6.Sync.Interrupts
import Xv6.Vm.Counts
import Xv6.Sync.Owners
import Xv6.Log.Capacity
import Xv6.Ipc.Stretches
import Xv6.Sched.OneCpu
