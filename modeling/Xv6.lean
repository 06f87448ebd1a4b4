import Xv6.Lib.GuardedRun
import Xv6.Param
import Xv6.Proc
import Xv6.SyscallHistory
import Xv6.LoggedArguments
import Xv6.ProcessRun
import Xv6.KilledSlots
import Xv6.SyscallAccounting
import Xv6.Lib.WeightedDraw
import Xv6.Lottery
import Xv6.Lib.CrashProg
import Xv6.Log
import Xv6.CommitCrash
import Xv6.LogOperations
import Xv6.GroupCommit
import Xv6.Lib.WaitFor
import Xv6.LogAdmission
import Xv6.SpinLocks
import Xv6.LockOrder
import Xv6.Lib.RingBuffer
import Xv6.Pipe
import Xv6.Cpus
import Xv6.PipeQueue
import Xv6.ProcessTable
import Xv6.Reaping
import Xv6.Lib.PageStore
import Xv6.Vm
import Xv6.AddressSpace
import Xv6.AddressSpaceOps
import Xv6.ProcessMemory
import Xv6.PageOwners
import Xv6.ProcessSize
import Xv6.Disk
import Xv6.Lib.StateProg
import Xv6.Inode
import Xv6.BlockMap
import Xv6.InodeOps
import Xv6.InodeLife
import Xv6.BlockOwners
import Xv6.RoundRobin
import Xv6.SleepExclusion
import Xv6.CopyOut
import Xv6.HistorySecrecy
import Xv6.GrowProcess
import Xv6.ExecMemory
import Xv6.ExecArguments
import Xv6.BufferCache
import Xv6.BufferCoherence
import Xv6.ExecCall
import Xv6.PageByPage
import Xv6.ExecEffects
import Xv6.ExecImage
import Xv6.FreeBlocks
import Xv6.FileBytes
import Xv6.FileWrite
import Xv6.SharedOffset
import Xv6.Decimal
import Xv6.GrepMatch
import Xv6.Lib.CString
import Xv6.GrepLines
import Xv6.Lib.ReadLog
import Xv6.SyscallArgs
import Xv6.LoggedRead
import Xv6.LogPrinting
import Xv6.ReportedTimes
import Xv6.ConsoleInput
import Xv6.ConsoleLines
import Xv6.Lib.Tiling
import Xv6.Lib.CircularList
import Xv6.UserHeap
import Xv6.HeapBlocks
import Xv6.HeapRuns
import Xv6.ShellParse
import Xv6.ShellGrammar
import Xv6.ShellSyntax
import Xv6.ShellStrings
import Xv6.Memmove
import Xv6.Mp
import Xv6.PageMap
import Xv6.HeapRequests
import Xv6.Ide
import Xv6.IdeRequests
import Xv6.InterruptNesting
import Xv6.InterruptRuns
import Xv6.Directory
import Xv6.Lib.StateFrame
import Xv6.DirectoryMap
import Xv6.Namex
import Xv6.PathResolution
import Xv6.Lib.References
import Xv6.OpenFiles
import Xv6.FileReferences
import Xv6.ShellRun
import Xv6.ShellPlumbing
import Xv6.ConsoleScreen
import Xv6.ConsoleEcho
import Xv6.Mkfs
import Xv6.MkfsAppend
import Xv6.MkfsImage
import Xv6.MkfsBoot
import Xv6.StrayCopy
