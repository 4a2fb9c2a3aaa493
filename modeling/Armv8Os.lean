import Armv8Os.Lib.Transition
import Armv8Os.Lib.Prog
import Armv8Os.Lib.Bytes
import Armv8Os.Lib.Keyed
import Armv8Os.Lib.Owners
import Armv8Os.Lib.Simulation
import Armv8Os.Lib.Forest
import Armv8Os.Lib.Chain
import Armv8Os.Lib.Words
import Armv8Os.Lib.RedBlack
import Armv8Os.Lib.Ring
import Armv8Os.Common.Sem
import Armv8Os.Common.SemAccounts
import Armv8Os.Common.Queue
import Armv8Os.Driver.Sd
import Armv8Os.Common.Ipc
import Armv8Os.Common.MsgIds
import Armv8Os.Common.Rbtree
import Armv8Os.Common.RbtreeHeap
import Armv8Os.Common.RbtreeInsert
import Armv8Os.Common.RbtreeErase
import Armv8Os.Common.RbtreeSet
import Armv8Os.Kernel.Sched
import Armv8Os.Kernel.Wait
import Armv8Os.Kernel.RunQueue
import Armv8Os.Kernel.Proc
import Armv8Os.Kernel.WaitExit
import Armv8Os.Kernel.ProcTree
import Armv8Os.Kernel.Pids
import Armv8Os.Kernel.Console
import Armv8Os.Kernel.ConsoleLock
import Armv8Os.Kernel.Pages
import Armv8Os.Kernel.Slab
import Armv8Os.Aarch64.Mmu
import Armv8Os.Kernel.Pt
import Armv8Os.Kernel.PageMap
import Armv8Os.Kernel.AddressSpace
import Armv8Os.Kernel.CopyPgdir
import Armv8Os.Kernel.Teardown
import Armv8Os.Kernel.UserAccess
import Armv8Os.Fs.Defines
import Armv8Os.Fs.BlockLocks
import Armv8Os.Fs.Log
import Armv8Os.Fs.LogThreads
import Armv8Os.Fs.LogGuarantees
import Armv8Os.Fs.Cache
import Armv8Os.Fs.CacheSpec
import Armv8Os.Fs.Commit
import Armv8Os.Fs.CacheRefine
import Armv8Os.Fs.CrashSafety
import Armv8Os.Fs.Ondisk
import Armv8Os.Fs.InodeCache
import Armv8Os.Fs.BlockCache
import Armv8Os.Fs.Inode
import Armv8Os.Fs.InodeRefine
import Armv8Os.Fs.Ownership
import Armv8Os.Fs.StoreSpec
import Armv8Os.Fs.FileMap
import Armv8Os.Fs.InodeSpec
import Armv8Os.Fs.InodeLife
import Armv8Os.Fs.BlockOwnership
import Armv8Os.Fs.FileContent
import Armv8Os.Fs.Directory
import Armv8Os.Fs.DirSpec
import Armv8Os.User.Mkfs
import Armv8Os.User.MkfsImage
import Armv8Os.User.MkfsRun
import Armv8Os.User.MkfsBoot
import Armv8Os.User.MkfsLimits
import Armv8Os.Fs.File
import Armv8Os.Fs.Tally
import Armv8Os.Fs.Pipe
import Armv8Os.Kernel.Exec
import Armv8Os.Kernel.Sysfile
import Armv8Os.Kernel.SysfileSpec
import Armv8Os.Kernel.InodeTally
import Armv8Os.Kernel.Accounts
import Armv8Os.Kernel.AccountCalls
import Armv8Os.Kernel.InodeLocks
import Armv8Os.Kernel.InodeRefs
import Armv8Os.Kernel.FileRefs
import Armv8Os.Kernel.Execve
import Armv8Os.Kernel.ExecSpace
import Armv8Os.Kernel.ExecLoad
import Armv8Os.Kernel.ExecClean
import Armv8Os.Kernel.ExecStack
import Armv8Os.Kernel.ExecImage
import Armv8Os.Kernel.ExecReturns
import Armv8Os.Kernel.ExecProgram
